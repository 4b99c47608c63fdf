import Mathlib.Algebra.BigOperators.Group.List.Lemmas
import Mathlib.Data.List.ReduceOption
import SsaFold.Proofs.Module.Addresses
import SsaFold.Proofs.Simplify.Calls

/-!
# What is counted

The counts are defined by a walk over the placed blocks that adds up in a table.  What they say does
not speak of a walk: a name goes with the number of placed calls that have the address of a function
of this name as their last operand, all other placed calls are indirect, and the total is the number
of placed calls (`Module.Tallied`).  So the counts of two modules with the same calls, in whatever
order and in whatever blocks, are the same (`Module.Rearranges`).

The tally of a list of calls is settled first, by induction with a table in which something has been
counted already; it depends on the list up to permutation only.
-/

namespace SsaFold

namespace CallCounts

variable (c : CallCounts) (calls : List (Option String)) (name : String)

/-! ## The tally of a list -/

lemma mem_foldl_add : name ∈ (calls.foldl add c).byName ↔ name ∈ c.byName ∨ some name ∈ calls := by
  induction calls generalizing c with
  | nil => simp
  | cons call rest ih =>
    rw [List.foldl_cons, ih]
    cases call with
    | none => simp [add]
    | some name' =>
      by_cases hname : name' = name
      · simp [add, hname]
      · simp [add, Std.TreeMap.mem_alter, hname, Ne.symm hname]

lemma getD_foldl_add :
    (calls.foldl add c).byName.getD name 0 = c.byName.getD name 0 + calls.count (some name) := by
  induction calls generalizing c with
  | nil => simp
  | cons call rest ih =>
    rw [List.foldl_cons, ih]
    cases call with
    | none => simp [add]
    | some name' =>
      rw [List.count_cons]
      by_cases hname : name' = name
      · subst hname
        simp [add, Std.TreeMap.getD_eq_getD_getElem?]
        omega
      · simp [add, Std.TreeMap.getD_alter, hname]

lemma indirect_foldl_add : (calls.foldl add c).indirect = c.indirect + calls.count none := by
  induction calls generalizing c with
  | nil => rfl
  | cons call rest ih =>
    rw [List.foldl_cons, ih]
    cases call with
    | none => simp [add]; omega
    | some name => simp [add]

/-- The numbers of the names and the number of indirect calls make up the total. -/
lemma total_eq : c.total = (c.byName.toList.map Prod.snd).sum + c.indirect := by
  have hvalues : c.byName.values = c.byName.toList.map Prod.snd := by
    show c.byName.foldr (fun _ n ns => n :: ns) [] = _
    rw [Std.TreeMap.foldr_eq_foldr_toList]
    induction c.byName.toList with
    | nil => rfl
    | cons e es ih => simp [ih]
  rw [total, hvalues]
  induction c.byName.toList with
  | nil => simp
  | cons e es ih => simp [ih]; omega

/-- The tally of the calls of a list. -/
def ofCalls (calls : List (Option String)) : CallCounts := calls.foldl add {}

lemma mem_ofCalls : name ∈ (ofCalls calls).byName ↔ some name ∈ calls := by
  rw [ofCalls, mem_foldl_add]
  simp

lemma getElem?_ofCalls : (ofCalls calls).byName[name]?
    = if some name ∈ calls then some (calls.count (some name)) else none := by
  have hcount := getD_foldl_add {} calls name
  split_ifs with hmem
  · have hkey := (mem_ofCalls calls name).2 hmem
    have hvalue : (ofCalls calls).byName[name]? = some ((ofCalls calls).byName.getD name 0) :=
      Std.TreeMap.getElem?_eq_some_getD hkey
    rw [hvalue, ofCalls, hcount]
    simp
  · exact Std.TreeMap.getElem?_eq_none (mt (mem_ofCalls calls name).1 hmem)

lemma indirect_ofCalls : (ofCalls calls).indirect = calls.count none := by
  rw [ofCalls, indirect_foldl_add]
  simp

lemma count_reduceOption : calls.reduceOption.count name = calls.count (some name) := by
  rw [List.reduceOption, List.count_filterMap]
  rfl

lemma length_reduceOption_add_count :
    calls.reduceOption.length + calls.count none = calls.length := by
  induction calls with
  | nil => rfl
  | cons call rest ih =>
    cases call with
    | none => simp [← ih]; omega
    | some name => simp [← ih]; omega

/-- Every call is counted once. -/
lemma total_ofCalls : (ofCalls calls).total = calls.length := by
  set byName := (ofCalls calls).byName with hbyName
  -- Each name goes with the number of its calls, and each name that is called is there once.
  have hnumbers : byName.toList.map Prod.snd
      = byName.keys.map fun name => calls.reduceOption.count name := by
    rw [← Std.TreeMap.map_fst_toList_eq_keys, List.map_map]
    refine List.map_congr_left fun e he => ?_
    have hget : byName[e.1]? = some e.2 := Std.TreeMap.mem_toList_iff_getElem?_eq_some.1 he
    rw [hbyName, getElem?_ofCalls] at hget
    split_ifs at hget
    exact (Option.some.inj hget).symm.trans (count_reduceOption calls e.1).symm
  have hkeys : byName.keys.Perm calls.reduceOption.dedup := by
    rw [List.perm_ext_iff_of_nodup Std.TreeMap.nodup_keys (List.nodup_dedup _)]
    intro name
    rw [Std.TreeMap.mem_keys, mem_ofCalls, List.mem_dedup, List.reduceOption_mem_iff]
  rw [total_eq, hnumbers, (hkeys.map _).sum_eq, List.sum_map_count_dedup_eq_length,
    indirect_ofCalls]
  exact length_reduceOption_add_count calls

/-- The order of the calls does not matter. -/
lemma ofCalls_perm {calls calls' : List (Option String)} (h : calls.Perm calls') :
    (ofCalls calls).byName.toList = (ofCalls calls').byName.toList ∧
      (ofCalls calls).indirect = (ofCalls calls').indirect := by
  constructor
  · refine Std.TreeMap.Equiv.toList_eq (.of_forall_constGet?_eq fun name => ?_)
    simp only [getElem?_ofCalls, h.mem_iff, h.count_eq]
  · simp only [indirect_ofCalls, h.count_eq]

end CallCounts

namespace Module

variable {m m' : Module} {i : InstId} {name : String}

/-! ## Calls -/

/-- The instruction is a call. -/
def IsCall (m : Module) (i : InstId) : Prop := ∃ inst ∈ m.inst? i, inst.opcode = .call

/-- The instruction is a call, and its last operand is the address of the function. -/
def Calls (m : Module) (i : InstId) (func : Func) : Prop :=
  ∃ inst ∈ m.inst? i, inst.opcode = .call ∧ inst.operandValues.getLast? = some func.value

/-- The instruction calls a function of this name. -/
def CallsName (m : Module) (name : String) (i : InstId) : Prop :=
  ∃ func ∈ m.functions, func.name = name ∧ m.Calls i func

/-- The instruction is a call of anything else: it has no operand, or its last operand is not the
address of a function. -/
def CallsUnknown (m : Module) (i : InstId) : Prop :=
  m.IsCall i ∧ ∀ func ∈ m.functions, ¬ m.Calls i func

instance (m : Module) (i : InstId) : Decidable (m.IsCall i) :=
  inferInstanceAs (Decidable (∃ inst ∈ m.inst? i, inst.opcode = .call))

instance (m : Module) (i : InstId) (func : Func) : Decidable (m.Calls i func) :=
  inferInstanceAs (Decidable (∃ inst ∈ m.inst? i,
    inst.opcode = .call ∧ inst.operandValues.getLast? = some func.value))

instance (m : Module) (name : String) (i : InstId) : Decidable (m.CallsName name i) :=
  inferInstanceAs (Decidable (∃ func ∈ m.functions, func.name = name ∧ m.Calls i func))

instance (m : Module) (i : InstId) : Decidable (m.CallsUnknown i) :=
  inferInstanceAs (Decidable (m.IsCall i ∧ ∀ func ∈ m.functions, ¬ m.Calls i func))

lemma isSome_callAt? : (m.callAt? i).isSome ↔ m.IsCall i := by
  rw [callAt?, IsCall]
  cases hi : m.inst? i with
  | none => simp
  | some inst => by_cases hcall : inst.opcode = .call <;> simp [hcall]

lemma addressed?_eq_some {v : ValueId} {f : FuncId} :
    m.addressed? v = some f ↔ m.kind? v = some (.function f) := by
  rw [addressed?]
  split
  · rename_i hkind
    simp [hkind]
  · rename_i hkind
    simpa using hkind f

/-- The functions of this address are those that a search by the address finds. -/
lemma Addressed.exists_func (h : m.Addressed) (v : ValueId) :
    ((m.addressed? v).bind m.func?).map Func.name = some name ↔
      ∃ func ∈ m.functions, func.name = name ∧ v = func.value := by
  simp only [Option.map_eq_some_iff, Option.bind_eq_some_iff, addressed?_eq_some, h v]
  constructor
  · rintro ⟨func, ⟨f, ⟨func', hfunc', rfl⟩, hfunc⟩, rfl⟩
    obtain rfl := Option.some.inj (hfunc.symm.trans hfunc')
    exact ⟨func, Array.mem_of_getElem? hfunc, rfl, rfl⟩
  · rintro ⟨func, hmem, rfl, rfl⟩
    obtain ⟨k, hk⟩ := Array.mem_iff_getElem?.1 hmem
    exact ⟨func, ⟨⟨k⟩, ⟨func, hk, rfl⟩, hk⟩, rfl⟩

/-- What is found to be called is what the last operand is the address of. -/
lemma Addressed.callAt?_eq_some (h : m.Addressed) :
    m.callAt? i = some (some name) ↔ m.CallsName name i := by
  rw [callAt?]
  cases hi : m.inst? i with
  | none => simp [CallsName, Calls, hi]
  | some inst =>
    by_cases hcall : inst.opcode = .call
    · have hcalls : m.CallsName name i ↔ ∃ func ∈ m.functions, func.name = name ∧
          inst.operandValues.getLast? = some func.value := by
        simp [CallsName, Calls, hi, hcall]
      have hcallee : m.callee? inst = inst.operandValues.getLast?.bind m.addressed? := by
        rw [callee?_eq, if_pos hcall]
      rw [hcalls, Option.bind_some, if_pos hcall, Option.some.injEq, hcallee]
      cases inst.operandValues.getLast? with
      | none => simp
      | some v => simpa only [Option.bind_some, Option.some.injEq] using h.exists_func v
    · simp [CallsName, Calls, hi, hcall]

/-- A call of anything else is one for which no function is found. -/
lemma Addressed.callAt?_eq_some_none (h : m.Addressed) :
    m.callAt? i = some none ↔ m.CallsUnknown i := by
  have hnone : m.callAt? i = some none ↔
      m.IsCall i ∧ ∀ name, m.callAt? i ≠ some (some name) := by
    rw [← isSome_callAt?]
    rcases m.callAt? i with _ | _ | name <;> simp
  rw [hnone, CallsUnknown]
  simp only [ne_eq, h.callAt?_eq_some, CallsName, not_exists, not_and]
  refine and_congr_right fun _ => ⟨fun h func hfunc => h func.name func hfunc rfl, ?_⟩
  rintro h _ func hfunc rfl
  exact h func hfunc

/-! ## Counts -/

/-- The counts say how often the placed calls reach what. -/
structure Tallied (m : Module) (c : CallCounts) : Prop where
  /-- A name is listed exactly if a function of this name is called. -/
  listed : ∀ name, name ∈ c.byName ↔ ∃ i ∈ m.placedInsts, m.CallsName name i
  /-- It is listed with the number of the calls of functions of this name. -/
  count : ∀ name n, c.byName[name]? = some n → n = m.placedInsts.countP (m.CallsName name ·)
  /-- All other calls are indirect. -/
  indirect : c.indirect = m.placedInsts.countP (m.CallsUnknown ·)
  /-- Every call is counted. -/
  total : c.total = m.placedInsts.countP (m.IsCall ·)

/-- The second module is the first with its placed blocks in another order, and with the
instructions in them in another order or in other blocks. -/
structure Rearranges (m m' : Module) : Prop where
  /-- An instruction says what it said and reads what it read. -/
  insts : ∀ i, (m'.inst? i).map (fun x => (x.toInstSpec, x.operandValues))
    = (m.inst? i).map fun x => (x.toInstSpec, x.operandValues)
  values : ∀ v, m'.kind? v = m.kind? v
  functions : m'.functions.map Func.heading = m.functions.map Func.heading
  /-- The same blocks are placed. -/
  placed : m'.placedBlocks.Perm m.placedBlocks
  /-- Together they hold the same instructions. -/
  held : (m.placedBlocks.flatMap m'.instsOf).Perm (m.placedBlocks.flatMap m.instsOf)

/-- The instructions of a block can be put in another order. -/
lemma rearranges_modifyBlock (b : BlockId) {f : Block → Block}
    (hf : ∀ block, (f block).insts.toList.Perm block.insts.toList) :
    m.Rearranges (m.modifyBlock b f) := by
  refine ⟨fun _ => rfl, fun _ => rfl, rfl, .refl _, List.Perm.flatMap_left _ fun c _ => ?_⟩
  rw [instsOf, instsOf, block?_modifyBlock]
  split_ifs
  · cases m.block? c with
    | none => exact .refl _
    | some block => exact hf block
  · exact .refl _

lemma Rearranges.placedInsts (h : m.Rearranges m') : m'.placedInsts.Perm m.placedInsts :=
  (h.placed.flatMap_right _).trans h.held

lemma Rearranges.callAt? (h : m.Rearranges m') (i : InstId) : m'.callAt? i = m.callAt? i := by
  have hnames : ∀ f, (m'.func? f).map Func.name = (m.func? f).map Func.name := fun f => by
    have := congrArg (fun fs : Array Func => (fs[f.index]?).map Func.name) h.functions
    simpa [func?, Function.comp_def, Func.heading] using this
  have haddresses : m'.addressed? = m.addressed? := funext fun v => by
    rw [addressed?, addressed?, h.values]
  have hinsts := h.insts i
  rw [Module.callAt?, Module.callAt?]
  cases hi : m.inst? i with
  | none =>
    rw [hi, Option.map_none, Option.map_eq_none_iff] at hinsts
    rw [hinsts]
    rfl
  | some inst =>
    rw [hi, Option.map_some, Option.map_eq_some_iff] at hinsts
    obtain ⟨inst', hi', heq⟩ := hinsts
    obtain ⟨hspec, hvalues⟩ := Prod.mk.inj heq
    have hop : inst'.opcode = inst.opcode := congrArg InstSpec.opcode hspec
    simp only [hi', Option.bind_some, callee?_eq, hop, hvalues, haddresses, Option.map_bind,
      Function.comp_def, hnames]

lemma countCalls_eq (m : Module) : m.countCalls = .ofCalls (m.placedInsts.filterMap m.callAt?) := by
  rw [countCalls, placedCalls_eq]
  rfl

lemma Addressed.tallied (h : m.Addressed) : m.Tallied m.countCalls := by
  rw [countCalls_eq]
  constructor
  · intro name
    rw [CallCounts.mem_ofCalls, List.mem_filterMap]
    simp only [h.callAt?_eq_some]
  · intro name n hn
    rw [CallCounts.getElem?_ofCalls] at hn
    split_ifs at hn
    rw [← Option.some.inj hn, List.count_filterMap]
    refine List.countP_congr fun i _ => ?_
    simp [h.callAt?_eq_some]
  · rw [CallCounts.indirect_ofCalls, List.count_filterMap]
    refine List.countP_congr fun i _ => ?_
    simp [h.callAt?_eq_some_none]
  · rw [CallCounts.total_ofCalls, List.length_filterMap_eq_countP]
    refine List.countP_congr fun i _ => ?_
    simp [isSome_callAt?]

end Module

open SsaFold.Module

/-- The counts of a reachable module are the numbers of its placed calls, and no rearrangement of
the module changes them. -/
theorem Reachable.counts_calls {m : Module} (h : Reachable m) : m.Tallied m.countCalls ∧
    ∀ m', m.Rearranges m' → m'.countCalls.byName.toList = m.countCalls.byName.toList ∧
      m'.countCalls.indirect = m.countCalls.indirect ∧ m'.countCalls.total = m.countCalls.total ∧
      ∀ name, m'.countCalls.reportLines name = m.countCalls.reportLines name := by
  refine ⟨h.addressed.tallied, fun m' hm' => ?_⟩
  have hcalls : m'.callAt? = m.callAt? := funext hm'.callAt?
  obtain ⟨hnames, hindirect⟩ := CallCounts.ofCalls_perm (hm'.placedInsts.filterMap m'.callAt?)
  rw [hcalls, ← countCalls_eq, ← hcalls, ← countCalls_eq] at hnames hindirect
  refine ⟨hnames, hindirect, ?_, fun name => ?_⟩
  · rw [CallCounts.total_eq, CallCounts.total_eq, hnames, hindirect]
  · rw [CallCounts.reportLines, CallCounts.reportLines, hnames, hindirect]

/-- Two functions of one name, and a function that calls both, and more: through a global, through
its parameter, and without an operand.  A block that is not placed calls the first function. -/
def manyCalls : List Op := [
  .addFunc "g" .void [],
  .addFunc "g" .void [],
  .addGlobal "table" "@table = global ptr null",
  .addFunc "main" .void [.ptr],
  .addBlock ⟨2⟩ (some "entry"),
  .createBlock ⟨2⟩ none,
  .appendInst ⟨0⟩ { opcode := .call, ty := .void } [⟨0⟩],
  .appendInst ⟨0⟩ { opcode := .call, ty := .void } [⟨2⟩],
  .appendInst ⟨0⟩ { opcode := .call, ty := .void } [⟨0⟩, ⟨4⟩],
  .appendInst ⟨0⟩ { opcode := .call, ty := .void } [⟨4⟩, ⟨1⟩],
  .appendInst ⟨0⟩ { opcode := .call, ty := .void } [],
  .appendInst ⟨0⟩ { opcode := .store, ty := .void } [⟨4⟩, ⟨0⟩],
  .appendInst ⟨1⟩ { opcode := .call, ty := .void } [⟨0⟩],
  .build ⟨2⟩ (some ⟨0⟩) (.ret none)]

/-- Both functions are counted under their name, and so they are if the entry block is reversed. -/
theorem counts_calls_manyCalls : ∃ m m', Op.runAll (.empty "") manyCalls = .ok m ∧
    m' = m.modifyBlock ⟨0⟩ (fun block => { block with insts := block.insts.reverse }) ∧
    m.Tallied m.countCalls ∧ m.countCalls.byName.toList = [("g", 2)] ∧ m.countCalls.indirect = 3 ∧
    m'.countCalls.byName.toList = [("g", 2)] ∧ m'.countCalls.indirect = 3 ∧
    m'.countCalls.total = 5 := by
  have hrun : (Op.runAll (.empty "") manyCalls).toOption.map (fun m =>
      (m.countCalls.byName.toList, m.countCalls.indirect, m.countCalls.total))
        = some ([("g", 2)], 3, 5) := by
    decide +kernel
  obtain ⟨m, hm, heq⟩ := toOption_map_eq_some.1 hrun
  simp only [Prod.mk.injEq] at heq
  obtain ⟨hnames, hindirect, htotal⟩ := heq
  obtain ⟨htallied, hrearranged⟩ := Reachable.counts_calls ((Reachable.empty "").runAll hm)
  obtain ⟨hnames', hindirect', htotal', -⟩ := hrearranged _ (rearranges_modifyBlock ⟨0⟩
    (f := fun block => { block with insts := block.insts.reverse })
    fun block => by simp)
  exact ⟨m, _, hm, rfl, htallied, hnames, hindirect, hnames'.trans hnames,
    hindirect'.trans hindirect, htotal'.trans htotal⟩

end SsaFold
