import SsaFold.Proofs.Text.Distinct
import SsaFold.Proofs.Text.Slots

/-!
# Names that leave room

The last number that fits in 64 bits is refused as the name of a parameter, result or block, since
there would be no number behind it.  Any other name leaves room (`HasRoom`), and so do the names of
a module that is read (`Module.namesRoomy_ofText`): while its body is read, whatever stands for a
parameter, a result or a block that is placed has passed the counter (`Body.Roomy`).
-/

namespace SsaFold

open Text

namespace Text

/-- The name does not denote the last number that fits in 64 bits. -/
def HasRoom (name : String) : Prop := slot? name ≠ some (slotBound - 1)

lemma hasRoom_toString {k : Nat} : HasRoom (toString k) ↔ k + 1 ≠ slotBound := by
  have hpos : 0 < slotBound := by decide
  rw [HasRoom, slot?_toString]
  split_ifs with hlt
  · rw [Ne, Option.some.injEq]
    omega
  · simp only [reduceCtorEq, not_false_eq_true, ne_eq, true_iff]
    omega

namespace Body

open SsaFold.Module

variable {b b' : Body} {c : BlockId}

/-- A name is taken exactly if it leaves room. -/
lemma takeKey_ok_iff {name : Option String} {key : String} : takeKey name b = .ok (key, b') ↔
    HasRoom key ∧ key = name.getD (toString b.nextSlot) ∧
      b' = { b with nextSlot := slotAfter key b.nextSlot } := by
  constructor
  · intro hrun
    obtain ⟨hkey, hb'⟩ := takeKey_eq_ok hrun
    refine ⟨fun hlast => ?_, hkey, hb'⟩
    have := slot_lt_of_takeKey hrun hlast
    omega
  · rintro ⟨hroom, rfl, rfl⟩
    cases hrun : takeKey name b with
    | error e => exact absurd (takeKey_eq_error.1 hrun).1 hroom
    | ok x =>
      obtain ⟨key, b₁⟩ := x
      obtain ⟨rfl, rfl⟩ := takeKey_eq_ok hrun
      rfl

/-! ## What has passed the counter -/

/-- What is defined, and what is placed, has a name that leaves room. -/
structure Roomy (b : Body) : Prop where
  value : ∀ (n : String) v, b.values[n]? = some v → b.module.kind? v ≠ some .placeholder → HasRoom n
  block : ∀ (l : String) d, b.blocks[l]? = some d → b.isPlaced d = true → HasRoom l

lemma isPlaced_congr (hfunctions : b'.module.functions = b.module.functions)
    (hfunc : b'.func = b.func) (d : BlockId) : b'.isPlaced d = b.isPlaced d := by
  simp only [isPlaced, func?, hfunctions, hfunc]

lemma Roomy.lookup (h : b.Roomy) (hb : b.Draft) (hl : Lookup b b') : b'.Roomy := by
  have hw := hl.widens
  have hplaced := isPlaced_congr hw.functions hw.func
  refine ⟨fun n v hv hkind => ?_, fun l d hd hd' => ?_⟩
  · have hold : b.values[n]? = some v := by
      cases hl with
      | @forward name ty _ _ _ =>
        by_contra hold
        rw [getElem?_insert] at hv
        split_ifs at hv
        · obtain rfl := Option.some.inj hv
          exact hkind (kind?_eq_some.2 ⟨_, value?_pushValue_self b.module _, rfl⟩)
        · exact hold hv
      | _ => exact hv
    refine h.value n v hold fun hplaceholder => hkind ?_
    exact hw.module.keeps.kind? hplaceholder
  · rw [hplaced] at hd'
    cases hl with
    | @label label _ =>
      rw [getElem?_insert] at hd
      split_ifs at hd
      · -- A block that is new is not placed.
        obtain rfl := Option.some.inj hd
        rw [isPlaced, Option.any_eq_true] at hd'
        obtain ⟨func, hfunc, hmem⟩ := hd'
        obtain ⟨block, hblock, -⟩ := hb.shaped.placed b.func func hfunc _ (of_decide_eq_true hmem)
        simp [Module.block?] at hblock
      · exact h.block l d hd hd'
    | _ => exact h.block l d hd hd'

lemma Roomy.lookups (h : b.Roomy) (hb : b.Draft) (hl : Lookups b b') : b'.Roomy := by
  induction hl with
  | refl => exact h
  | tail hsteps hstep ih => exact ih.lookup (hb.lookups hsteps) hstep

/-- A block that begins has a label that leaves room. -/
lemma Roomy.begins (h : b.Roomy) (hb : b.Draft) {l : String} (hbegins : Begins l c b b')
    (hl : HasRoom l) :
    b'.Roomy := by
  obtain ⟨n, b₁, m, hlookups, hc, hplace, rfl⟩ := hbegins.looked
  have hb₁ := (hb.setNextSlot n).lookups hlookups
  have h₁ : b₁.Roomy := Roomy.lookups (b := { b with nextSlot := n }) ⟨h.value, h.block⟩
    (hb.setNextSlot n) hlookups
  obtain ⟨block, func, hblock, hfunc, -, rfl⟩ := placeBlock_eq_ok hplace
  refine ⟨h₁.value, fun l' d hd hplaced => ?_⟩
  by_cases hd' : b₁.isPlaced d = true
  · exact h₁.block l' d hd hd'
  · -- Only the block that begins is newly placed.
    obtain ⟨block', hblock', hhome, -⟩ := hb₁.blocks l c hc
    obtain rfl := Option.some.inj (hblock.symm.trans hblock')
    rw [hhome] at hfunc
    simp only [isPlaced, func?_modifyFunc, hhome, if_true, hfunc, Option.map_some, Option.any_some,
      Array.mem_push, decide_eq_true_eq] at hplaced hd'
    obtain rfl := hplaced.resolve_left hd'
    exact hb₁.blocksApart l' l d hd hc ▸ hl

/-- The result of an instruction has a name that leaves room. -/
lemma Adds.roomy {i : InstId} {inst : Inst} {name : Option String} (h : Adds c i inst name b b')
    (hb : b.Roomy) (hroom : ∀ n, enteredAs name inst.ty b.nextSlot = some n → HasRoom n) :
    b'.Roomy := by
  have hplaced := isPlaced_congr h.functions h.func
  refine ⟨fun n v hv hkind => ?_, fun l d hd hd' => hb.block l d (h.labels ▸ hd) (hplaced d ▸ hd')⟩
  rw [h.enters.values] at hv
  split_ifs at hv with hkey
  · exact hroom n hkey
  · exact hb.value n v hv fun hplaceholder => hkind (h.renames.extension.keeps.kind? hplaceholder)

/-! ## Lines -/

/-- The name of a result is taken, or its number is. -/
lemma Binds.hasRoom {inst : Inst} {name : Option String} (h : Binds name inst b b') {n : String}
    (hn : enteredAs name inst.ty b.nextSlot = some n) : HasRoom n := by
  cases name with
  | some own =>
    obtain rfl : own = n := Option.some.inj hn
    obtain ⟨m, m', b₁, -, hkey, -⟩ := nameResult_stages h
    exact (takeKey_ok_iff.1 hkey).1
  | none =>
    rw [enteredAs, Option.none_or] at hn
    simp only [Binds] at h
    split_ifs at hn h
    obtain rfl := Option.some.inj hn
    simp only [numberResult, StateT.bind_eq_ok] at h
    obtain ⟨key, b₁, hkey, -⟩ := h
    obtain ⟨hroom, rfl, -⟩ := takeKey_ok_iff.1 hkey
    exact hroom

lemma hasRoom_of_label {l : String} {u : Unit} (hrun : line [.label l] b = .ok (u, b')) :
    HasRoom l := by
  have hbegin : beginBlock l b = .ok (u, b') := hrun
  simp only [beginBlock, StateT.bind_eq_ok] at hbegin
  obtain ⟨key, b₁, hkey, -⟩ := hbegin
  obtain ⟨hroom, rfl, -⟩ := takeKey_ok_iff.1 hkey
  exact hroom

lemma hasRoom_of_openBlock (hclosed : ∀ d, ¬ b.IsOpen d) (hrun : openBlock b = .ok (c, b')) :
    HasRoom (toString b.nextSlot) := by
  rw [openBlock_of_closed hclosed] at hrun
  simp only [StateT.bind_eq_ok] at hrun
  obtain ⟨key, b₁, hkey, -⟩ := hrun
  obtain ⟨hroom, rfl, -⟩ := takeKey_ok_iff.1 hkey
  exact hroom

/-- A line takes names that leave room. -/
theorem Roomy.line (h : b.Roomy) (hb : b.Draft) (hnamed : b.Named) {ts : List Token}
    (hts : ∀ t ∈ ts, t.Valid) {u : Unit} (hrun : line ts b = .ok (u, b')) : b'.Roomy := by
  have hlabel := @hasRoom_of_label b b'
  unfold Body.line at hrun hlabel
  split at hrun
  · obtain ⟨c, hbegins⟩ := beginBlock_eq_ok hrun
    exact h.begins hb hbegins (hlabel hrun)
  · simp at hrun
  · obtain ⟨name, op, s, hparses, c, b₁, b₂, vs, cs, m, i, inst, b₃, hopen, hlookups, -, -, happend,
      hwell, hinst, hbinds, rfl⟩ := instruction_eq_ok hts hrun
    obtain ⟨hb₁, hc⟩ := hb.openBlock hopen
    have h₁ : b₁.Roomy := by
      rcases openBlock_eq_ok hopen with ⟨-, rfl⟩ | ⟨hclosed, hbegins⟩
      · exact h
      · exact h.begins hb hbegins (hasRoom_of_openBlock hclosed hopen)
    have hw := hlookups.widens
    have hadds := Binds.adds (hb₁.lookups hlookups)
      ((hnamed.openBlock hb hopen).lookups hb₁ hlookups)
      (hw.func ▸ hw.module.keeps.owner? hc) happend (hwell hb.wellFormed) hinst hbinds
    have hadded := hadds.roomy (h₁.lookups hb₁ hlookups) fun n hn => hbinds.hasRoom hn
    exact ⟨hadded.value, hadded.block⟩

lemma Roomy.lines {tss tss' : List (List Token)} (h : b.Roomy) (hlaid : b.Laid tss)
    (htss : ∀ ts ∈ tss', ∀ t ∈ ts, t.Valid) {u : Unit} (hrun : lines tss' b = .ok (u, b')) :
    b'.Roomy := by
  induction tss' generalizing b tss with
  | nil =>
    obtain ⟨-, rfl⟩ := StateT.pure_eq_ok.1 hrun
    exact h
  | cons ts tss' ih =>
    obtain ⟨hts, htss⟩ := List.forall_mem_cons.1 htss
    obtain ⟨b₁, hline, hrest⟩ := lines_cons_eq_ok hrun
    exact ih (h.line hlaid.draft hlaid.named hts hline) (hlaid.line hts hline) htss hrest

/-- In the beginning there are the parameters. -/
lemma roomy_nameParams {k : Nat} {names : List (Option String)} {u : Unit}
    (hrun : nameParams k names b = .ok (u, b'))
    (hb : ∀ (n : String) v, b.values[n]? = some v → HasRoom n) :
    (∀ (n : String) v, b'.values[n]? = some v → HasRoom n) ∧ b'.blocks = b.blocks := by
  induction names generalizing b k with
  | nil =>
    obtain ⟨-, rfl⟩ := StateT.pure_eq_ok.1 hrun
    exact ⟨hb, rfl⟩
  | cons name names ih =>
    obtain ⟨key, b₁, func, v, hkey, -, -, -, hrest⟩ := nameParams_cons_eq_ok.1 hrun
    obtain ⟨hroom, -, rfl⟩ := takeKey_ok_iff.1 hkey
    obtain ⟨hvalues, hblocks⟩ := ih hrest fun n w hw => by
      rw [getElem?_insert] at hw
      split_ifs at hw with heq
      · exact heq ▸ hroom
      · exact hb n w hw
    exact ⟨hvalues, hblocks⟩

lemma roomy_start {m : Module} {symbols : Symbols} {f : FuncId} {params : List (Option String)}
    (hrun : Body.start m symbols f params = .ok b) : b.Roomy := by
  simp only [Body.start, bind_eq_ok, pure_eq_ok] at hrun
  obtain ⟨⟨u, _⟩, hparams, rfl⟩ := hrun
  obtain ⟨hvalues, hblocks⟩ := roomy_nameParams hparams (by simp)
  exact ⟨fun n v hv _ => hvalues n v hv, fun l d hd => by simp [hblocks] at hd⟩

end Body
end Text

namespace Module

variable {m m' : Module} {f : FuncId}

/-- The names of parameters and results of function `f` leave room, and those of its blocks do. -/
structure NamesRoomy (m : Module) (f : FuncId) : Prop where
  value : ∀ {v n}, m.IsOf f v → m.nameOf? v = some n → HasRoom n
  block : ∀ {c block n}, m.block? c = some block → block.func = f → block.name = some n → HasRoom n

lemma SameNames.namesRoomy (h : SameNames f m m') (hroomy : m.NamesRoomy f) : m'.NamesRoomy f := by
  refine ⟨fun hv hname => ?_, fun hc hfunc hname => ?_⟩
  · obtain ⟨hv, heq⟩ := h.value hv
    exact hroomy.value hv (heq ▸ hname)
  · obtain ⟨block, hblock, hfunc, heq⟩ := h.block hc hfunc
    exact hroomy.block hblock hfunc (heq ▸ hname)

/-- What is listed, and has passed the counter, has a name that leaves room. -/
lemma namesRoomy_of_listed {b : Body} (hlisted : b.Listed) (hroomy : b.Roomy) (hb : b.Draft)
    (hclosed : b.Closed) : b.module.NamesRoomy b.func := by
  refine ⟨fun {v n} hv hname => ?_, fun {c block n} hc hfunc hname => ?_⟩
  · obtain ⟨value, hvalue, hkind⟩ := hv.exists_value hb.module hb.shaped
    refine hroomy.value n v (hlisted.value hv hname) fun hplaceholder => hkind ?_
    exact Option.some.inj ((kind?_eq_some.2 ⟨value, hvalue, rfl⟩).symm.trans hplaceholder)
  · have hl := hlisted.block hc hfunc hname
    exact hroomy.block n c hl (hclosed.placed n c hl)

/-- In a function that has been read, the names of parameters, results and blocks leave room. -/
theorem namesRoomy_ofText {text : String} (hread : ofText text = .ok m) {func : Func}
    (hf : m.func? f = some func) (hdefined : func.layout ≠ #[]) : m.NamesRoomy f := by
  obtain ⟨d, b, tss, hbody, rfl⟩ := exists_bodyOf_func hread hf hdefined
  obtain ⟨-, -, b₁, hrun₁, -, hend, -⟩ := hbody.read hread
  have hbind := hread
  simp only [ofText, bind_eq_ok, mapError_eq_ok] at hbind
  obtain ⟨o, houtline, s, hheaders, -⟩ := hbind
  obtain ⟨m₀, b', hm, hd, hstart, htss, hrun, hfunc, -, hkeeps⟩ :=
    hbody.kept hread houtline hheaders
  obtain ⟨-, rfl⟩ := Prod.mk.inj (Except.ok.inj (hrun₁.symm.trans hrun))
  have hlaid := Body.laid_start hm hd hstart
  have hdraft := (hlaid.lines htss hrun).draft
  have hlisted := (Body.listed_start hm hd hstart).lines hlaid htss hrun
  have hroomy := (Body.roomy_start hstart).lines hlaid htss hrun
  obtain ⟨func', hf'⟩ := hdraft.home
  rw [hfunc] at hf'
  refine (hkeeps.sameNames hdraft.module hdraft.shaped hf' (complete_ofText hread)).namesRoomy ?_
  exact hfunc ▸ namesRoomy_of_listed hlisted hroomy hdraft (Body.closed_of_endError? hend)

end Module
end SsaFold
