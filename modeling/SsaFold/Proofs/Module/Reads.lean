import SsaFold.Proofs.Module.Operands

/-!
# The record of the reads

`Agrees` says that operands and use lists record the same reads: the operand at `u` reads `v`
and remembers position `slot` exactly when the use list of `v` holds `u` at that position.  So
no use list holds a place twice, and none holds a place that is not there.

While an operation runs, the two sides disagree for a while: a use list has let go of a read
that the operand still remembers, or it holds a read by an instruction that has not been added.
`Records R` names what the use lists hold by a relation `R`, and `AgreesOff D` excepts the
places in `D`.  Each operation below is followed by a lemma that says that it succeeds, what it
does to the record, and that the bare module stays as it is.
-/

namespace SsaFold
namespace Module

/-- The use lists hold the reads that `R` names, each at the position it names, and no others. -/
def Records (m : Module) (R : Use → Operand → Prop) : Prop :=
  ∀ u v slot, R u ⟨v, slot⟩ ↔ m.use? v slot = some u

/-- Operands and use lists agree outside `D`, and no use list holds a place in `D`. -/
def AgreesOff (m : Module) (D : Use → Prop) : Prop :=
  m.Records fun u o => ¬ D u ∧ m.operand? u = some o

/-- Operands and use lists record the same reads. -/
def Agrees (m : Module) : Prop := m.Records fun u o => m.operand? u = some o

variable {m m' : Module}

lemma agreesOff_false : (m.AgreesOff fun _ => False) ↔ m.Agrees := by
  simp [AgreesOff, Agrees]

lemma agreesOff_iff {D : Use → Prop} :
    m.AgreesOff D ↔
      ∀ u v slot, (¬ D u ∧ m.operand? u = some ⟨v, slot⟩) ↔ m.use? v slot = some u := Iff.rfl

lemma agrees_iff :
    m.Agrees ↔ ∀ u v slot, m.operand? u = some ⟨v, slot⟩ ↔ m.use? v slot = some u := Iff.rfl

lemma AgreesOff.use? {D : Use → Prop} (h : m.AgreesOff D) {u : Use} {v : ValueId} {slot : Nat}
    (hD : ¬ D u) (ho : m.operand? u = some ⟨v, slot⟩) : m.use? v slot = some u :=
  (h u v slot).1 ⟨hD, ho⟩

/-- What is read is there. -/
lemma Agrees.exists_value (h : m.Agrees) {u : Use} {o : Operand} (ho : m.operand? u = some o) :
    ∃ value, m.value? o.value = some value := by
  obtain ⟨value, hv, -⟩ := use?_eq_some.1 ((agrees_iff.1 h u o.value o.slot).1 ho)
  exact ⟨value, hv⟩

lemma Records.congr {R S : Use → Operand → Prop} (h : m.Records R) (hRS : ∀ u o, R u o ↔ S u o) :
    m.Records S := by
  intro u v slot
  rw [← hRS]
  exact h u v slot

/-! ## One read -/

/-- In an array that holds an entry at the one position `pos` gives it, the last entry moves to
where the entry `x` is removed. -/
lemma getElem?_swapRemove_eq_some {α : Type} {a : Array α} {x y : α} {k j : Nat}
    (pos : α → Nat → Prop) (h : ∀ x j, a[j]? = some x ↔ pos x j)
    (hpos : ∀ x i j, pos x i → pos x j → i = j) (hx : pos x k) :
    (swapRemove a k)[j]? = some y ↔
      y ≠ x ∧ ∃ i, pos y i ∧ j = if i = a.size - 1 then k else i := by
  have lt_size : ∀ {y j}, pos y j → j < a.size := fun hy =>
    (Array.getElem?_eq_some_iff.1 ((h _ _).2 hy)).1
  have hk := lt_size hx
  rw [getElem?_swapRemove hk, Array.back?_eq_getElem?]
  constructor
  · intro hj
    split_ifs at hj with hlt hjk
    · subst hjk
      have hy := (h _ _).1 hj
      refine ⟨?_, a.size - 1, hy, by simp⟩
      rintro rfl
      have := hpos _ _ _ hx hy
      omega
    · have hy := (h _ _).1 hj
      refine ⟨?_, j, hy, by rw [if_neg (by omega)]⟩
      rintro rfl
      exact hjk (hpos _ _ _ hy hx)
  · rintro ⟨hyx, i, hy, rfl⟩
    have hi := lt_size hy
    have hik : i ≠ k := by
      rintro rfl
      exact hyx (Option.some.inj (((h _ _).2 hy).symm.trans ((h _ _).2 hx)))
    split_ifs with h₁
    all_goals first | exact h₁ ▸ (h _ _).2 hy | exact (h _ _).2 hy | omega

section OneRead

variable {v : ValueId} {u : Use} {D : Use → Prop} {R : Use → Operand → Prop}

lemma use?_modifyValue {f : Value → Value} (w : ValueId) (slot : Nat) :
    (m.modifyValue v f).use? w slot
      = if v = w then (m.value? w).bind fun x => (f x).uses[slot]? else m.use? w slot := by
  simp only [use?, value?_modifyValue]
  split
  · cases m.value? w <;> rfl
  · rfl

lemma operand?_modifyValue {f : Value → Value} (w : Use) :
    (m.modifyValue v f).operand? w = m.operand? w := rfl

lemma Records.addUse (h : m.Records R) {slot : Nat} (hadd : m.addUse v u = .ok (m', slot)) :
    m'.Records fun w o => R w o ∨ (w = u ∧ o = ⟨v, slot⟩) := by
  obtain ⟨value, hv, rfl, rfl⟩ := addUse_eq_ok_iff.1 hadd
  intro w x s
  have hold := h w x s
  rw [use?_modifyValue]
  by_cases hx : v = x
  · subst hx
    rw [use?_of_value? hv] at hold
    simp only [if_true, hv, Option.bind_some, Array.getElem?_push, Operand.mk.injEq, true_and]
    by_cases hs : s = value.uses.size
    · subst hs
      simp only [Array.getElem?_size] at hold
      simp [hold, eq_comm]
    · simp [hs, hold]
  · simp [hx, hold, Ne.symm hx]

lemma bare_addUse {slot : Nat} (hadd : m.addUse v u = .ok (m', slot)) : m'.bare = m.bare := by
  obtain ⟨value, -, -, rfl⟩ := addUse_eq_ok_iff.1 hadd
  exact bare_modifyValue fun _ => rfl

lemma insts_addUse {slot : Nat} (hadd : m.addUse v u = .ok (m', slot)) : m'.insts = m.insts := by
  obtain ⟨value, -, -, rfl⟩ := addUse_eq_ok_iff.1 hadd
  rfl

/-- The use list of a value, in terms of the operands. -/
lemma AgreesOff.getElem?_uses (h : m.AgreesOff D) {value : Value} (hv : m.value? v = some value)
    {w : Use} {s : Nat} : value.uses[s]? = some w ↔ ¬ D w ∧ m.operand? w = some ⟨v, s⟩ := by
  rw [← use?_of_value? hv s]
  exact (h w v s).symm

/-- What is left of the use list when the read at `u` is removed. -/
lemma AgreesOff.getElem?_swapRemove (h : m.AgreesOff D) {value : Value}
    (hv : m.value? v = some value) {slot : Nat} (hD : ¬ D u) (ho : m.operand? u = some ⟨v, slot⟩)
    {w : Use} {s : Nat} :
    (swapRemove value.uses slot)[s]? = some w ↔ w ≠ u ∧
      ∃ i, (¬ D w ∧ m.operand? w = some ⟨v, i⟩) ∧
        s = if i = value.uses.size - 1 then slot else i := by
  refine getElem?_swapRemove_eq_some (fun w i => ¬ D w ∧ m.operand? w = some ⟨v, i⟩)
    (fun w s => h.getElem?_uses hv) ?_ ⟨hD, ho⟩
  rintro w i j ⟨-, hi⟩ ⟨-, hj⟩
  simpa using hi.symm.trans hj

/-- Removing the read at `u` from a use list keeps the agreement if the operand of the last read
is told its new position. -/
lemma AgreesOff.swap (h : m.AgreesOff D) {value : Value} (hv : m.value? v = some value)
    {slot : Nat} (hD : ¬ D u) (ho : m.operand? u = some ⟨v, slot⟩) {F : Use → Operand → Operand}
    (hF : ∀ w o, ¬ D w → w ≠ u → m.operand? w = some o →
      F w o = if o = ⟨v, value.uses.size - 1⟩ then ⟨v, slot⟩ else o) :
    ((m.modifyValue v fun x => { x with uses := swapRemove value.uses slot }).updateOperands
      F).AgreesOff fun w => D w ∨ w = u := by
  rw [agreesOff_iff]
  intro w x s
  rw [operand?_updateOperands, use?_updateOperands, operand?_modifyValue, use?_modifyValue,
    Option.map_eq_some_iff]
  by_cases hx : v = x
  · subst hx
    rw [if_pos rfl, hv, Option.bind_some, h.getElem?_swapRemove hv hD ho]
    constructor
    · rintro ⟨hDw, o, how, hFo⟩
      obtain ⟨hDw, hwu⟩ := not_or.1 hDw
      rw [hF w o hDw hwu how] at hFo
      refine ⟨hwu, o.slot, ⟨hDw, ?_⟩, ?_⟩ <;> split_ifs at hFo with hlast
      · simp [how, hlast]
      · simp [how, hFo]
      · simp [hlast, ← (Operand.mk.inj hFo).2]
      · subst hFo
        rw [if_neg fun hs : s = _ => hlast (by rw [hs])]
    · rintro ⟨hwu, i, ⟨hDw, how⟩, rfl⟩
      refine ⟨not_or.2 ⟨hDw, hwu⟩, _, how, ?_⟩
      rw [hF w _ hDw hwu how]
      by_cases hi : i = value.uses.size - 1 <;> simp [hi]
  · rw [if_neg hx, ← h]
    constructor
    · rintro ⟨hDw, o, how, hFo⟩
      obtain ⟨hDw, hwu⟩ := not_or.1 hDw
      rw [hF w o hDw hwu how] at hFo
      split_ifs at hFo with hlast
      · exact absurd (Operand.mk.inj hFo).1 hx
      · exact ⟨hDw, how.trans (congrArg some hFo)⟩
    · rintro ⟨hDw, how⟩
      have hwu : w ≠ u := by
        rintro rfl
        exact hx (Operand.mk.inj (Option.some.inj (ho.symm.trans how))).1
      refine ⟨not_or.2 ⟨hDw, hwu⟩, _, how, ?_⟩
      rw [hF w _ hDw hwu how, if_neg]
      simp [Ne.symm hx]

/-- A read that is recorded can be removed, and nothing else leaves the record. -/
lemma AgreesOff.removeUse (h : m.AgreesOff D) (v : ValueId) (slot : Nat) (hD : ¬ D u)
    (ho : m.operand? u = some ⟨v, slot⟩) :
    ∃ m', m.removeUse v u = .ok m' ∧ (m'.AgreesOff fun w => D w ∨ w = u) ∧ m'.bare = m.bare := by
  obtain ⟨value, hv, hslot⟩ := use?_eq_some.1 (h.use? hD ho)
  set uses := swapRemove value.uses slot
  set m₁ := m.modifyValue v fun x => { x with uses }
  have hbare : m₁.bare = m.bare := bare_modifyValue fun _ => rfl
  cases hmoved : uses[slot]? with
  | none =>
    -- The removed read was the last one, and nothing moves.
    refine ⟨m₁.updateOperands fun _ o => o, ?_, h.swap hv hD ho fun w o hDw hwu how => ?_, ?_⟩
    · rw [updateOperands_eq_self fun _ _ _ => rfl]
      simp only [Module.removeUse, getOperand_eq_ok.2 ho, getValue_eq_ok.2 hv, ok_bind, hslot,
        if_true]
      rw [show (swapRemove value.uses slot)[slot]? = none from hmoved]
      rfl
    · rw [if_neg]
      rintro rfl
      have : uses[slot]? = some w :=
        (h.getElem?_swapRemove hv hD ho).2 ⟨hwu, _, ⟨hDw, how⟩, by simp⟩
      simp [hmoved] at this
    · rw [bare_updateOperands fun _ _ _ => rfl, hbare]
  | some moved =>
    -- The read that takes the free position is the one whose entry was last.
    obtain ⟨hmu, i, ⟨hDm, hom⟩, hi⟩ := (h.getElem?_swapRemove hv hD ho).1 hmoved
    have hlast : i = value.uses.size - 1 := by
      by_contra hne
      rw [if_neg hne] at hi
      subst hi
      exact hmu (Option.some.inj (((h.getElem?_uses hv).2 ⟨hDm, hom⟩).symm.trans hslot))
    subst hlast
    refine ⟨m₁.updateOperands fun w o => if w = moved then { o with slot } else o, ?_,
      h.swap hv hD ho fun w o hDw hwu how => ?_, ?_⟩
    · simp only [Module.removeUse, getOperand_eq_ok.2 ho, getValue_eq_ok.2 hv, ok_bind, hslot,
        if_true]
      rw [show (swapRemove value.uses slot)[slot]? = some moved from hmoved]
      exact setOperandAt_eq (m := m₁) hom _
    · by_cases hw : w = moved
      · subst hw
        obtain rfl : o = ⟨v, value.uses.size - 1⟩ := by simpa [hom] using how.symm
        simp
      · rw [if_neg hw, if_neg]
        rintro rfl
        exact hw (Option.some.inj (((h.getElem?_uses hv).2 ⟨hDw, how⟩).symm.trans
          ((h.getElem?_uses hv).2 ⟨hDm, hom⟩)))
    · rw [bare_updateOperands, hbare]
      intro w o _
      split <;> rfl

/-- An operand whose read has left the record enters it again with the value it is told. -/
lemma AgreesOff.enter (h : m.AgreesOff fun w => w = u) {o : Operand} (ho : m.operand? u = some o)
    {slot : Nat} (hadd : m.addUse v u = .ok (m', slot)) :
    ∃ m'', m'.setOperandAt u (fun _ => ⟨v, slot⟩) = .ok m'' ∧ m''.Agrees := by
  have hop : ∀ w, m'.operand? w = m.operand? w := by
    obtain ⟨value, -, -, rfl⟩ := addUse_eq_ok_iff.1 hadd
    exact fun _ => rfl
  refine ⟨_, setOperandAt_eq ((hop u).trans ho) _, agrees_iff.2 fun w x s => ?_⟩
  rw [use?_updateOperands, ← h.addUse hadd w x s, operand?_updateOperands, hop]
  by_cases hw : w = u
  · subst hw
    simp [ho, eq_comm]
  · simp [hw]

end OneRead

/-! ## Redirecting one operand -/

lemma setOperandAt_eq_ok {u : Use} {f : Operand → Operand} (h : m.setOperandAt u f = .ok m') :
    m' = m.updateOperands fun w x => if w = u then f x else x := by
  obtain ⟨o, ho⟩ : ∃ o, m.getOperand u = .ok o := by
    simp only [setOperandAt, bind_eq_ok] at h
    obtain ⟨o, ho, -⟩ := h
    exact ⟨o, ho⟩
  rw [setOperandAt_eq (getOperand_eq_ok.1 ho), Except.ok.injEq] at h
  exact h.symm

/-- Redirecting an operand changes the record on both sides.  The bare module changes at that
operand only. -/
lemma Agrees.setOperand (h : m.Agrees) {u : Use} {v : ValueId}
    (hrun : m.setOperand u v = .ok m') :
    m'.Agrees ∧ m'.bare = m.bare.updateOperands fun w o => if w = u then ⟨v, 0⟩ else o := by
  simp only [Module.setOperand, bind_eq_ok, getOperand_eq_ok] at hrun
  obtain ⟨o, ho, hrun⟩ := hrun
  by_cases hov : o.value = v
  · rw [if_pos hov, pure_eq_ok] at hrun
    subst hrun
    refine ⟨h, (updateOperands_eq_self fun w x hx => ?_).symm⟩
    rw [operand?_bare, Option.map_eq_some_iff] at hx
    obtain ⟨y, hy, rfl⟩ := hx
    split
    · subst_vars
      obtain rfl : o = y := Option.some.inj (ho.symm.trans hy)
      rfl
    · rfl
  · obtain ⟨m₁, hrun₁, h₁, hbare₁⟩ :=
      (agreesOff_false.2 h).removeUse o.value o.slot not_false ho
    obtain ⟨o₁, ho₁, -⟩ := operand?_of_bare_eq hbare₁ ho
    simp only [if_neg hov, hrun₁, ok_bind, bind_eq_ok] at hrun
    obtain ⟨⟨m₂, slot⟩, hadd, hset⟩ := hrun
    have h₁' : m₁.AgreesOff fun w => w = u := by simpa using h₁
    obtain ⟨m₃, hrun₃, h₃⟩ := h₁'.enter ho₁ hadd
    obtain rfl : m₃ = m' := Except.ok.inj (hrun₃.symm.trans hset)
    refine ⟨h₃, ?_⟩
    rw [setOperandAt_eq_ok hset, ← hbare₁, ← bare_addUse hadd]
    refine bare_updateOperands_eq fun w x _ => ?_
    split <;> rfl

/-! ## Redirecting every read of a value -/

/-- The reads of a value. -/
def usesOf (m : Module) (v : ValueId) : Array Use := ((m.value? v).map Value.uses).getD #[]

/-- The module in which the reads of `source` have become the last reads of `target`. -/
def redirected (m : Module) (source target : ValueId) : Module :=
  ((m.updateOperands fun _ o =>
      if o.value = source then ⟨target, (m.usesOf target).size + o.slot⟩ else o).modifyValue
    source fun x => { x with uses := #[] }).modifyValue
    target fun x => { x with uses := x.uses ++ m.usesOf source }

lemma usesOf_eq {v : ValueId} {value : Value} (h : m.value? v = some value) :
    m.usesOf v = value.uses := by
  simp [usesOf, h]

/-- Telling the places in `moved` one after the other is one update of all places. -/
lemma redirect_eq {moved : Array Use} {source : ValueId} (target : ValueId) (base : Nat)
    (h : ∀ u s, moved[s]? = some u ↔ m.operand? u = some ⟨source, s⟩) :
    ∀ us k, moved.toList.drop k = us →
      (m.updateOperands fun _ o =>
        if o.value = source ∧ o.slot < k then ⟨target, base + o.slot⟩ else o).redirect
          target (base + k) us
      = .ok (m.updateOperands fun _ o =>
          if o.value = source then ⟨target, base + o.slot⟩ else o) := by
  intro us
  induction us with
  | nil =>
    -- All places have been told.
    intro k hk
    have hsize : moved.size ≤ k := by simpa using List.drop_eq_nil_iff.1 hk
    rw [redirect, updateOperands_congr]
    intro u o ho
    by_cases hsource : o.value = source
    · have hs : moved[o.slot]? = some u := (h _ _).2 (by rw [ho, ← hsource])
      have : o.slot < k := by
        have := (Array.getElem?_eq_some_iff.1 hs).1
        omega
      simp [hsource, this]
    · simp [hsource]
  | cons u us ih =>
    intro k hk
    have hu : moved[k]? = some u := by
      rw [← Array.getElem?_toList, ← List.head?_drop, hk, List.head?_cons]
    have ho := (h u k).1 hu
    have hrest : moved.toList.drop (k + 1) = us := by
      rw [← List.tail_drop, hk, List.tail_cons]
    rw [redirect, setOperandAt_eq (o := ⟨source, k⟩) (by simp [ho]), ok_bind,
      updateOperands_updateOperands, Nat.add_assoc, ← ih (k + 1) hrest]
    congr 1
    refine updateOperands_congr fun w x hx => ?_
    by_cases hw : w = u
    · subst hw
      obtain rfl : x = ⟨source, k⟩ := Option.some.inj (hx.symm.trans ho)
      simp
    · have hslot : x.value = source → x.slot ≠ k := by
        rintro hsource rfl
        have := (h w x.slot).2 (by rw [hx, ← hsource])
        exact hw (Option.some.inj (this.symm.trans hu))
      rw [if_neg hw]
      by_cases hsource : x.value = source
      · have hlt : x.slot < k ↔ x.slot < k + 1 := by
          have := hslot hsource
          omega
        simp only [hlt]
      · simp [hsource]

/-- Redirecting every read of a value succeeds where both values are there, and
`Module.redirected` is the outcome. -/
lemma Agrees.replaceAllUses_eq (h : m.Agrees) {source target : ValueId} {sv tv : Value}
    (hne : source ≠ target) (hs : m.value? source = some sv) (ht : m.value? target = some tv) :
    m.replaceAllUses source target = .ok (m.redirected source target, sv.uses.size) := by
  obtain ⟨m₁, hm₁⟩ : ∃ m₁, m₁ = m.modifyValue source fun x => { x with uses := #[] } := ⟨_, rfl⟩
  have hop : ∀ u s, sv.uses[s]? = some u ↔ m₁.operand? u = some ⟨source, s⟩ := by
    intro u s
    rw [hm₁, operand?_modifyValue, agrees_iff.1 h, use?_of_value? hs]
  have ht₁ : m₁.value? target = some tv := by
    rw [hm₁, value?_modifyValue, if_neg hne, ht]
  have hrun := redirect_eq target tv.uses.size hop sv.uses.toList 0 rfl
  rw [updateOperands_eq_self (by simp), Nat.add_zero] at hrun
  simp only [Module.replaceAllUses, if_neg hne, getValue_eq_ok.2 hs, ok_bind, ← hm₁,
    getValue_eq_ok.2 ht₁, hrun, redirected, usesOf_eq hs, usesOf_eq ht]
  rw [hm₁]
  rfl

/-- A redirection that succeeds has found both values, or had nothing to do. -/
lemma Agrees.replaceAllUses_eq_ok (h : m.Agrees) {source target : ValueId} {n : Nat}
    (hrun : m.replaceAllUses source target = .ok (m', n)) :
    (m' = m ∧ source = target) ∨
      source ≠ target ∧ ∃ sv tv, m.value? source = some sv ∧ m.value? target = some tv ∧
        m' = m.redirected source target := by
  by_cases hne : source = target
  · subst hne
    simp only [replaceAllUses_self, Except.ok.injEq, Prod.mk.injEq] at hrun
    exact .inl ⟨hrun.1.symm, rfl⟩
  · have hrun' := hrun
    simp only [Module.replaceAllUses, if_neg hne, bind_eq_ok, getValue_eq_ok] at hrun
    obtain ⟨sv, hs, tv, ht, -⟩ := hrun
    rw [value?_modifyValue, if_neg hne] at ht
    rw [h.replaceAllUses_eq hne hs ht, Except.ok.injEq, Prod.mk.injEq] at hrun'
    exact .inr ⟨hne, sv, tv, hs, ht, hrun'.1.symm⟩

section Redirected

variable {source target : ValueId} {sv tv : Value}

lemma value?_redirected (v : ValueId) :
    (m.redirected source target).value? v =
      (m.value? v).map fun x => { x with
        uses := (if v = source then #[] else x.uses) ++
          if v = target then m.usesOf source else #[] } := by
  simp only [redirected, value?_modifyValue, value?_updateOperands]
  cases m.value? v with
  | none => simp
  | some x =>
    simp only [eq_comm (a := v)]
    by_cases hs : source = v <;> by_cases ht : target = v <;> simp [hs, ht]

@[simp] lemma operand?_redirected (u : Use) :
    (m.redirected source target).operand? u = (m.operand? u).map fun o =>
      if o.value = source then ⟨target, (m.usesOf target).size + o.slot⟩ else o := by
  rw [Module.redirected, operand?_modifyValue, operand?_modifyValue, operand?_updateOperands]

lemma use?_redirected (hne : source ≠ target) (hs : m.value? source = some sv)
    (ht : m.value? target = some tv) (v : ValueId) (slot : Nat) :
    (m.redirected source target).use? v slot =
      if v = source then none
      else if v = target then (tv.uses ++ sv.uses)[slot]?
      else m.use? v slot := by
  simp only [use?, value?_redirected, usesOf_eq hs]
  by_cases hvs : v = source
  · subst hvs
    simp [hs, hne]
  · by_cases hvt : v = target
    · subst hvt
      simp [ht, hvs]
    · cases m.value? v <;> simp [hvs, hvt]

lemma Agrees.redirected (h : m.Agrees) (hne : source ≠ target) (hs : m.value? source = some sv)
    (ht : m.value? target = some tv) : (m.redirected source target).Agrees := by
  have hsource : ∀ u s, m.operand? u = some ⟨source, s⟩ ↔ sv.uses[s]? = some u := by
    intro u s
    rw [agrees_iff.1 h, use?_of_value? hs]
  have htarget : ∀ u s, m.operand? u = some ⟨target, s⟩ ↔ tv.uses[s]? = some u := by
    intro u s
    rw [agrees_iff.1 h, use?_of_value? ht]
  refine agrees_iff.2 fun u v slot => ?_
  rw [operand?_redirected, use?_redirected hne hs ht, usesOf_eq ht, Option.map_eq_some_iff]
  by_cases hvs : v = source
  · subst hvs
    simp only [if_true]
    constructor
    · rintro ⟨o, ho, heq⟩
      split_ifs at heq with hos
      · exact absurd (Operand.mk.inj heq).1.symm hne
      · subst heq
        exact absurd rfl hos
    · exact fun hno => absurd hno (by simp)
  · rw [if_neg hvs]
    by_cases hvt : v = target
    · subst hvt
      rw [if_pos rfl, Array.getElem?_append]
      -- The old entries keep their positions, and those that move follow them in order.
      constructor
      · rintro ⟨o, ho, heq⟩
        split_ifs at heq with hos
        · obtain ⟨-, rfl⟩ := Operand.mk.inj heq
          rw [if_neg (by omega), Nat.add_sub_cancel_left, ← hsource, ho, ← hos]
        · subst heq
          have hslot := (htarget u slot).1 ho
          rw [if_pos (Array.getElem?_eq_some_iff.1 hslot).1, hslot]
      · intro hslot
        split_ifs at hslot with hlt
        · exact ⟨_, (htarget u slot).2 hslot, if_neg hvs⟩
        · refine ⟨_, (hsource u (slot - tv.uses.size)).2 hslot, ?_⟩
          rw [if_pos rfl]
          congr 1
          show tv.uses.size + (slot - tv.uses.size) = slot
          omega
    · rw [if_neg hvt, ← agrees_iff.1 h]
      constructor
      · rintro ⟨o, ho, heq⟩
        split_ifs at heq with hos
        · exact absurd (Operand.mk.inj heq).1.symm hvt
        · rw [ho, heq]
      · exact fun ho => ⟨_, ho, if_neg hvs⟩

/-- The renaming of reads that a redirection does. -/
def redirection (source target : ValueId) (v : ValueId) : ValueId :=
  if v = source then target else v

lemma bare_redirected (m : Module) (source target : ValueId) :
    (m.redirected source target).bare = m.bare.residue (redirection source target) [] := by
  rw [residue_nil, ← bare_updateOperands_eq (F := fun _ o =>
    if o.value = source then ⟨target, (m.usesOf target).size + o.slot⟩ else o)]
  · rw [Module.redirected, bare_modifyValue, bare_modifyValue] <;> exact fun _ => rfl
  · intro u o _
    by_cases ho : o.value = source <;> simp [Operand.bare, redirection, ho]

end Redirected

end Module
end SsaFold
