import Mathlib.Data.Set.Basic
import SsaFold.Proofs.Simplify.Plan
import SsaFold.Proofs.Simplify.Verification

/-!
# The width bound slices the result

Two runs with different bounds drift apart as soon as one of them folds an instruction that is too
wide for the other.  In a typed module this has no effect on narrow values: the operands of an
addition or multiplication and its result have one type, so reads of a narrow value are sent to
narrow values only.  `Plan.Slices` relates the plan for a bound to the plan for 64 bits, and is kept
when both visit an instruction.  The two agree on narrow values, and what goes in the one is what is
narrow among what goes in the other.
-/

namespace SsaFold

namespace Module

variable {m : Module} {maxBits : Nat} {inst : Inst} {v kept : ValueId}

/-! ## Types and widths -/

/-- What an arithmetic instruction reads, and what it yields, are integers of one width. -/
lemma TypedInst.exists_width (h : m.TypedInst inst) {op : BinaryOp}
    (hop : inst.opcode = .binary op) :
    ∃ w, inst.ty = .int w ∧ ∀ v ∈ inst.operandValues, m.typeOf? v = some (.int w) := by
  obtain ⟨-, tys, htypes, haccepts⟩ := h
  simp only [InstSpec.Accepts, hop] at haccepts
  obtain ⟨w, hty, rfl⟩ := haccepts
  refine ⟨w, hty, fun v hv => ?_⟩
  have hmem : m.typeOf? v ∈ inst.operandValues.map m.typeOf? := List.mem_map_of_mem hv
  rw [htypes] at hmem
  simpa using hmem

/-- At its type, a constant is within the bound exactly if its width is; 64 bits bound nothing. -/
lemma Shaped.isConstant_iff (h : m.Shaped) {w : Nat} (hty : m.typeOf? v = some (.int w)) (n : Int) :
    m.isConstant v n maxBits = true ↔ m.isConstant v n maxIntBits = true ∧ w ≤ maxBits := by
  obtain ⟨value, hv, hvalue⟩ := typeOf?_eq_some.1 hty
  have hwidth : ∀ c, value.kind = .constInt c → c.bits = w := by
    intro c hkind
    have hfits := h.fits v value hv
    rw [hkind] at hfits
    exact Ty.int.inj (hfits.symm.trans hvalue)
  simp only [isConstant_eq_true, hv, Option.some.injEq]
  constructor
  · rintro ⟨_, c, rfl, hkind, hbits, hn⟩
    exact ⟨⟨value, c, rfl, hkind, c.bits_le, hn⟩, hwidth c hkind ▸ hbits⟩
  · rintro ⟨⟨_, c, rfl, hkind, -, hn⟩, hle⟩
    exact ⟨value, c, rfl, hkind, (hwidth c hkind).symm ▸ hle, hn⟩

/-- An identity operation is no wider than the bound. -/
lemma Folds.width_le (h : m.Folds maxBits inst kept) (hm : m.Shaped) (htyped : m.TypedInst inst) :
    ∃ w, inst.ty = .int w ∧ w ≤ maxBits := by
  obtain ⟨op, hop⟩ := h.exists_binary
  obtain ⟨w, hty, hoperands⟩ := htyped.exists_width hop
  obtain ⟨n, lhs, rhs, -, hvalues, hside⟩ := h
  have hlhs := hoperands lhs (by simp [hvalues])
  have hrhs := hoperands rhs (by simp [hvalues])
  rcases hside with ⟨hconst, -⟩ | ⟨hconst, -⟩
  · exact ⟨w, hty, ((hm.isConstant_iff hlhs n).1 hconst).2⟩
  · exact ⟨w, hty, ((hm.isConstant_iff hrhs n).1 hconst).2⟩

/-- Where the operands are within the bound, the bound makes no difference. -/
lemma Shaped.kept?_of_le (hm : m.Shaped) {w : Nat}
    (hoperands : ∀ v ∈ inst.operandValues, m.typeOf? v = some (.int w)) (hle : w ≤ maxBits) :
    m.kept? maxBits inst = m.kept? maxIntBits inst := by
  have hsurvivor : m.survivor? inst maxBits = m.survivor? inst maxIntBits := by
    refine survivor?_congr rfl rfl fun v hv n => ?_
    rw [Bool.eq_iff_iff, hm.isConstant_iff (hoperands v hv) n]
    exact and_iff_left hle
  rw [kept?, kept?, hsurvivor]

/-- The result of instruction `i` is an integer of at most `maxBits` bits. -/
def Narrow (m : Module) (maxBits : Nat) (i : InstId) : Prop :=
  ∃ inst w, m.inst? i = some inst ∧ inst.ty = .int w ∧ w ≤ maxBits

end Module

/-! ## Two plans in step -/

namespace Plan

variable {m : Module} {maxBits : Nat} {p q : Plan} {i : InstId} {inst : Inst}

/-- Reads are renamed to values of the same type. -/
def KeepsTypes (m : Module) (p : Plan) : Prop := ∀ v, m.typeOf? (p.rename v) = m.typeOf? v

lemma KeepsTypes.typedInst (h : KeepsTypes m p) (hm : m.Typed) (hi : m.inst? i = some inst) :
    m.TypedInst (inst.rename p.rename) :=
  (hm i inst hi).rename fun v _ => h v

lemma KeepsTypes.visit (h : KeepsTypes m p) (hm : m.Typed) (maxBits : Nat) (i : InstId) :
    KeepsTypes m (p.visit m maxBits i) := by
  rcases visit_cases m maxBits p i with hp | ⟨inst, kept, hi, hkept, -, hp⟩
  · rwa [hp]
  · intro v
    rw [hp]
    exact (Module.typeOf?_redirection (h.typedInst hm hi) (Module.folds_of_kept? hkept) _).trans
      (h v)

/-- The plan `p` for a bound against the plan `q` for 64 bits. -/
structure Slices (m : Module) (maxBits : Nat) (p q : Plan) : Prop where
  left : KeepsTypes m p
  right : KeepsTypes m q
  /-- Narrow values are renamed alike. -/
  rename : ∀ v w, m.typeOf? v = some (.int w) → w ≤ maxBits → p.rename v = q.rename v
  /-- What goes is what is narrow among what goes without the bound. -/
  gone : ∀ i, i ∈ p.gone ↔ i ∈ q.gone ∧ m.Narrow maxBits i

lemma slices_start (m : Module) (maxBits : Nat) : Slices m maxBits {} {} :=
  ⟨fun _ => rfl, fun _ => rfl, fun _ _ _ _ => rfl, fun i => by simp⟩

/-- With the bound, an instruction hands on what it hands on without, if it is narrow. -/
lemma Slices.kept?_iff (h : Slices m maxBits p q) (hm : m.Shaped) (htyped : m.Typed)
    (hi : m.inst? i = some inst) (kept : ValueId) :
    m.kept? maxBits (inst.rename p.rename) = some kept ↔
      m.kept? maxIntBits (inst.rename q.rename) = some kept ∧ m.Narrow maxBits i := by
  have hp := h.left.typedInst htyped hi
  -- A narrow addition or multiplication reads the same in both.
  have hsame : ∀ op, inst.opcode = .binary op → m.Narrow maxBits i →
      m.kept? maxBits (inst.rename p.rename) = m.kept? maxIntBits (inst.rename q.rename) := by
    rintro op hop ⟨inst', w, hi', hty, hle⟩
    obtain rfl : inst = inst' := Option.some.inj (hi.symm.trans hi')
    obtain ⟨w₀, hty₀, hoperands⟩ := (htyped i inst hi).exists_width hop
    obtain rfl : w₀ = w := Ty.int.inj (hty₀.symm.trans hty)
    have hrename : inst.rename p.rename = inst.rename q.rename :=
      inst.rename_congr fun v hv => h.rename v w₀ (hoperands v hv) hle
    rw [← hrename]
    refine hm.kept?_of_le (w := w₀) (fun v hv => ?_) hle
    rw [Inst.operandValues_rename] at hv
    obtain ⟨v₀, hv₀, rfl⟩ := List.mem_map.1 hv
    rw [h.left, hoperands v₀ hv₀]
  constructor
  · intro hkept
    have hfolds := Module.folds_of_kept? hkept
    obtain ⟨op, hop⟩ := hfolds.exists_binary
    obtain ⟨w, hty, hle⟩ := hfolds.width_le hm hp
    have hnarrow : m.Narrow maxBits i := ⟨inst, w, hi, hty, hle⟩
    exact ⟨(hsame op hop hnarrow).symm.trans hkept, hnarrow⟩
  · rintro ⟨hkept, hnarrow⟩
    obtain ⟨op, hop⟩ := (Module.folds_of_kept? hkept).exists_binary
    exact (hsame op hop hnarrow).trans hkept

/-- Both plans let a narrow instruction go. -/
lemma Slices.fold (h : Slices m maxBits p q) {p' q' : Plan} (hleft : KeepsTypes m p')
    (hright : KeepsTypes m q') {source target : ValueId} (hi : m.Narrow maxBits i)
    (hp' : p' = ⟨Module.redirection source target ∘ p.rename, p.gone ++ [i]⟩)
    (hq' : q' = ⟨Module.redirection source target ∘ q.rename, q.gone ++ [i]⟩) :
    Slices m maxBits p' q' := by
  subst hp' hq'
  refine ⟨hleft, hright, fun v w hty hle => ?_, fun j => ?_⟩
  · exact congrArg (Module.redirection source target) (h.rename v w hty hle)
  · simp only [List.mem_append, List.mem_singleton, h.gone]
    constructor
    · rintro (hj | rfl)
      · exact ⟨.inl hj.1, hj.2⟩
      · exact ⟨.inr rfl, hi⟩
    · rintro ⟨hj | rfl, hnarrow⟩
      · exact .inl ⟨hj, hnarrow⟩
      · exact .inr rfl

/-- Only the plan without the bound lets a wide instruction go. -/
lemma Slices.widen (h : Slices m maxBits p q) (htyped : m.Typed) {q' : Plan}
    (hright : KeepsTypes m q') {target : ValueId} (hi : m.inst? i = some inst)
    (hwide : ¬ m.Narrow maxBits i)
    (hq' : q' = ⟨Module.redirection inst.result target ∘ q.rename, q.gone ++ [i]⟩) :
    Slices m maxBits p q' := by
  subst hq'
  refine ⟨h.left, hright, fun v w hty hle => ?_, fun j => ?_⟩
  · -- A narrow value does not lead to the wide result.
    have hne : q.rename v ≠ inst.result := by
      intro heq
      have hresult : m.typeOf? inst.result = some inst.ty := (htyped i inst hi).1
      rw [← heq, h.right v, hty] at hresult
      exact hwide ⟨inst, w, hi, (Option.some.inj hresult).symm, hle⟩
    exact (h.rename v w hty hle).trans (if_neg hne).symm
  · simp only [List.mem_append, List.mem_singleton, h.gone]
    constructor
    · exact fun hj => ⟨.inl hj.1, hj.2⟩
    · rintro ⟨hj | rfl, hnarrow⟩
      · exact ⟨hj, hnarrow⟩
      · exact absurd hnarrow hwide

/-- Visiting an instruction keeps the two plans in step. -/
lemma Slices.visit (h : Slices m maxBits p q) (hm : m.Shaped) (htyped : m.Typed) (i : InstId) :
    Slices m maxBits (p.visit m maxBits i) (q.visit m maxIntBits i) := by
  have hleft := h.left.visit htyped maxBits i
  have hright := h.right.visit htyped maxIntBits i
  cases hi : m.inst? i with
  | none => simpa [Plan.visit, hi] using h
  | some inst =>
    have hkept := h.kept?_iff hm htyped hi
    cases hq : m.kept? maxIntBits (inst.rename q.rename) with
    | none =>
      have hp : m.kept? maxBits (inst.rename p.rename) = none := by
        refine Option.eq_none_iff_forall_ne_some.2 fun kept hp => ?_
        rw [hkept, hq] at hp
        cases hp.1
      rwa [visit_of_none hi hp, visit_of_none hi hq]
    | some kept =>
      by_cases hnarrow : m.Narrow maxBits i
      · have hp := (hkept kept).2 ⟨hq, hnarrow⟩
        by_cases hself : kept = inst.result
        · subst hself
          rwa [visit_of_self hi hp, visit_of_self hi hq]
        · exact h.fold hleft hright hnarrow (visit_of_kept hi hp hself) (visit_of_kept hi hq hself)
      · have hp : m.kept? maxBits (inst.rename p.rename) = none :=
          Option.eq_none_iff_forall_ne_some.2 fun kept hp => hnarrow ((hkept kept).1 hp).2
        rw [visit_of_none hi hp]
        by_cases hself : kept = inst.result
        · subst hself
          rwa [visit_of_self hi hq]
        · exact h.widen htyped hright hi hnarrow (visit_of_kept hi hq hself)

lemma Slices.visits (h : Slices m maxBits p q) (hm : m.Shaped) (htyped : m.Typed)
    (ids : List InstId) :
    Slices m maxBits (p.visits m maxBits ids) (q.visits m maxIntBits ids) := by
  induction ids generalizing p q with
  | nil => exact h
  | cons i rest ih => exact ih (h.visit hm htyped i)

end Plan

/-! ## What a run erases -/

namespace Module

variable {m : Module}

/-- The instructions that are there before a run with these options, and no more after it. -/
def erasedWith (m : Module) (o : Options) : Set InstId :=
  {i | ∃ inst m' stats, m.inst? i = some inst ∧ m.simplify o = .ok (m', stats) ∧ m'.inst? i = none}

/-- What the plan lets go is erased, with or without verification. -/
lemma Intact.mem_erasedWith (h : m.Intact) (hcheck : m.check = .ok ()) (maxBits : Nat)
    (verify : Bool) {i : InstId} :
    i ∈ m.erasedWith ⟨maxBits, verify⟩ ↔ i ∈ (m.plan maxBits).gone := by
  obtain ⟨m₁, n, hrun, hbare⟩ := h.simplify_plan maxBits
  obtain ⟨m', stats, hruns, -⟩ := h.simplify_verified hcheck maxBits
  obtain ⟨rfl, rfl⟩ := Prod.mk.inj (Except.ok.inj ((hruns false).symm.trans hrun))
  constructor
  · rintro ⟨inst, m₂, stats₂, hi, hrun₂, hnone⟩
    obtain ⟨rfl, -⟩ := Prod.mk.inj (Except.ok.inj ((hruns verify).symm.trans hrun₂))
    by_contra hlive
    obtain ⟨inst', hi', -⟩ := inst?_residue_of_not_mem hbare hi hlive
    rw [hnone] at hi'
    cases hi'
  · intro hgone
    have hplaced : i ∈ m.placedInsts :=
      (Plan.mem_gone_visits hgone).resolve_left List.not_mem_nil
    obtain ⟨inst, hi, -⟩ := h.shaped.mem_placedInsts.1 hplaced
    exact ⟨inst, m', _, hi, hruns verify, inst?_eq_none_of_residue hbare hgone⟩

end Module

/-- On a module that has been read from a text every run succeeds, and the bound slices the set of
the erased instructions: a run with bound `b` erases the instructions of an integer type of at most
`b` bits among those that a run with bound 64 erases.  So it erases more if the bound is larger, up
to a bound of 64, beyond which nothing changes. -/
theorem erasedWith_eq_narrow {text : String} {m : Module} (hread : Module.ofText text = .ok m)
    (verify : Bool) :
    (∀ b, ∃ m' stats, m.simplify ⟨b, verify⟩ = .ok (m', stats)) ∧
    (∀ b, m.erasedWith ⟨b, verify⟩ = {i | i ∈ m.erasedWith ⟨64, verify⟩ ∧
      ∃ inst w, m.inst? i = some inst ∧ inst.ty = .int w ∧ w ≤ b}) ∧
    (∀ b c, b ≤ c → m.erasedWith ⟨b, verify⟩ ⊆ m.erasedWith ⟨c, verify⟩) ∧
    ∀ b, 64 ≤ b → m.erasedWith ⟨b, verify⟩ = m.erasedWith ⟨64, verify⟩ := by
  obtain ⟨hm, hcheck⟩ := Module.wellFormed_ofText hread
  have h := hm.reachable.intact
  have hslice : ∀ b i, i ∈ m.erasedWith ⟨b, verify⟩ ↔
      i ∈ m.erasedWith ⟨64, verify⟩ ∧ m.Narrow b i := by
    intro b i
    rw [h.mem_erasedWith hcheck, h.mem_erasedWith hcheck]
    exact ((Plan.slices_start m b).visits h.shaped hm.typed m.placedInsts).gone i
  -- What is erased at all has at most 64 bits.
  have hnarrow : ∀ i ∈ m.erasedWith ⟨64, verify⟩, m.Narrow 64 i := fun i hi =>
    ((hslice 64 i).1 hi).2
  have hmono : ∀ {b c i}, b ≤ c → m.Narrow b i → m.Narrow c i := by
    rintro b c i hbc ⟨inst, w, hi, hty, hle⟩
    exact ⟨inst, w, hi, hty, hle.trans hbc⟩
  refine ⟨fun b => ?_, fun b => Set.ext (hslice b), fun b c hbc i hi => ?_, fun b hb => ?_⟩
  · obtain ⟨m', stats, hruns, -⟩ := h.simplify_verified hcheck b
    exact ⟨m', stats, hruns verify⟩
  · obtain ⟨hi64, hb⟩ := (hslice b i).1 hi
    exact (hslice c i).2 ⟨hi64, hmono hbc hb⟩
  · refine Set.ext fun i => ⟨fun hi => ((hslice b i).1 hi).1, fun hi => ?_⟩
    exact (hslice b i).2 ⟨hi, hmono hb (hnarrow i hi)⟩

/-- Two narrow matches and two wide ones; the second of each kind reads the first. -/
def widthsText : String :=
  "define i64 @f(i8 %x, i64 %y) \x7b\na:\n  %p = add i8 %x, 0\n  %q = mul i64 %y, 1\n" ++
  "  %r = add i64 %q, 0\n  %s = mul i8 1, %p\n  ret i64 %r\n\x7d\n"

theorem erasedWith_eq_narrow_widthsText : ∃ m, Module.ofText widthsText = .ok m ∧
    ⟨3⟩ ∈ m.erasedWith ⟨16, true⟩ ∧ ⟨2⟩ ∉ m.erasedWith ⟨16, true⟩ ∧
    ⟨2⟩ ∈ m.erasedWith ⟨64, true⟩ ∧ m.erasedWith ⟨100, true⟩ = m.erasedWith ⟨64, true⟩ := by
  have hruns : (Module.ofText widthsText).toOption.map (fun m =>
      ((m.inst? ⟨2⟩).map (·.ty), (m.inst? ⟨3⟩).map (·.ty),
        (m.simplify ⟨64, true⟩).toOption.map fun r => (r.1.inst? ⟨2⟩, r.1.inst? ⟨3⟩)))
      = some (some (.int 64), some (.int 8), some (none, none)) := by decide +kernel
  cases hread : Module.ofText widthsText with
  | error e => simp [hread, Except.toOption] at hruns
  | ok m =>
    simp only [hread, Except.toOption, Option.map_some, Option.some.injEq, Prod.mk.injEq,
      Option.map_eq_some_iff] at hruns
    obtain ⟨⟨inst₂, hi₂, hty₂⟩, ⟨inst₃, hi₃, hty₃⟩, hgone⟩ := hruns
    cases hrun : m.simplify ⟨64, true⟩ with
    | error e => simp [hrun] at hgone
    | ok r =>
      obtain ⟨m', stats⟩ := r
      obtain ⟨hnone₂, hnone₃⟩ : m'.inst? ⟨2⟩ = none ∧ m'.inst? ⟨3⟩ = none := by
        simpa [hrun] using hgone
      obtain ⟨-, hslice, -, hsame⟩ := erasedWith_eq_narrow hread true
      refine ⟨m, rfl, ?_, ?_, ⟨inst₂, m', stats, hi₂, hrun, hnone₂⟩, hsame 100 (by decide)⟩
      · rw [hslice]
        exact ⟨⟨inst₃, m', stats, hi₃, hrun, hnone₃⟩, inst₃, 8, hi₃, hty₃, by decide⟩
      · rw [hslice]
        rintro ⟨-, inst, w, hi, hty, hle⟩
        obtain rfl : inst₂ = inst := Option.some.inj (hi₂.symm.trans hi)
        obtain rfl : 64 = w := Ty.int.inj (hty₂.symm.trans hty)
        omega

end SsaFold
