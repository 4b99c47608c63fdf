import Mathlib.Data.List.Forall2
import Mathlib.Logic.Relator
import Mathlib.Tactic.Common
import SsaFold.Proofs.Outcome

/-!
# Lists that are related part by part

Two lists of one length, related at each position (`List.Forall₂`): what stands at a position, what
is listed, and what a loop makes of the one and the other.
-/

namespace SsaFold

variable {α β γ δ : Type} {R : α → β → Prop} {S : γ → δ → Prop} {as : List α} {bs : List β}

lemma rel_iff {x : Option α} {y : Option β} : Option.Rel R x y ↔
    (x = none ∧ y = none) ∨ ∃ a b, x = some a ∧ y = some b ∧ R a b := by
  constructor
  · rintro (hab | _)
    · exact .inr ⟨_, _, rfl, rfl, hab⟩
    · exact .inl ⟨rfl, rfl⟩
  · rintro (⟨rfl, rfl⟩ | ⟨a, b, rfl, rfl, hab⟩)
    · exact .none
    · exact .some hab

/-! ## Positions -/

lemma rel_getElem? (h : List.Forall₂ R as bs) (k : Nat) : Option.Rel R as[k]? bs[k]? := by
  induction h generalizing k with
  | nil => exact .none
  | cons hab _ ih =>
    cases k with
    | zero => exact .some hab
    | succ k => exact ih k

lemma rel_getLast? (h : List.Forall₂ R as bs) : Option.Rel R as.getLast? bs.getLast? := by
  rw [List.getLast?_eq_getElem?, List.getLast?_eq_getElem?, ← h.length_eq]
  exact rel_getElem? h _

lemma exists_of_forall₂_left (h : List.Forall₂ R as bs) {k : Nat} {a : α} (ha : as[k]? = some a) :
    ∃ b, bs[k]? = some b ∧ R a b := by
  obtain ⟨hnone, -⟩ | ⟨a', b, ha', hb, hab⟩ := rel_iff.1 (rel_getElem? h k)
  · rw [ha] at hnone
    cases hnone
  · obtain rfl := Option.some.inj (ha.symm.trans ha')
    exact ⟨b, hb, hab⟩

lemma exists_of_forall₂_right (h : List.Forall₂ R as bs) {k : Nat} {b : β} (hb : bs[k]? = some b) :
    ∃ a, as[k]? = some a ∧ R a b :=
  exists_of_forall₂_left (R := flip R) h.flip hb

lemma forall₂_of_getElem? (hlength : as.length = bs.length)
    (h : ∀ (k : Nat) a b, as[k]? = some a → bs[k]? = some b → R a b) : List.Forall₂ R as bs :=
  List.forall₂_iff_get.2 ⟨hlength, fun k ha hb =>
    h k _ _ (List.getElem?_eq_getElem ha) (List.getElem?_eq_getElem hb)⟩

/-- Two lists that are related to one list are related to each other. -/
lemma forall₂_of_common {R : α → γ → Prop} {T : β → γ → Prop} {Q : α → β → Prop} {cs : List γ}
    (h : List.Forall₂ R as cs) (h' : List.Forall₂ T bs cs)
    (hQ : ∀ (k : Nat) a b c, as[k]? = some a → bs[k]? = some b → cs[k]? = some c →
      R a c → T b c → Q a b) : List.Forall₂ Q as bs := by
  refine forall₂_of_getElem? (h.length_eq.trans h'.length_eq.symm) fun k a b ha hb => ?_
  obtain ⟨c, hc, hac⟩ := exists_of_forall₂_left h ha
  obtain ⟨c', hc', hbc⟩ := exists_of_forall₂_left h' hb
  obtain rfl := Option.some.inj (hc.symm.trans hc')
  exact hQ k a b c ha hb hc hac hbc

/-! ## Members -/

lemma exists_mem_of_forall₂ (h : List.Forall₂ R as bs) : ∀ b ∈ bs, ∃ a ∈ as, R a b := by
  intro b hb
  obtain ⟨k, hk⟩ := List.mem_iff_getElem?.1 hb
  obtain ⟨a, ha, hab⟩ := exists_of_forall₂_right h hk
  exact ⟨a, List.mem_of_getElem? ha, hab⟩

lemma forall₂_imp_mem {Q : α → β → Prop} (h : List.Forall₂ R as bs)
    (himp : ∀ a ∈ as, ∀ b, R a b → Q a b) : List.Forall₂ Q as bs := by
  induction h with
  | nil => exact .nil
  | cons hab _ ih =>
    obtain ⟨ha, has⟩ := List.forall_mem_cons.1 himp
    exact .cons (ha _ hab) (ih has)

/-- Under a relation that pairs each with one other, an entry is listed where its partner is. -/
lemma mem_iff_of_forall₂ (hR : Relator.BiUnique R) (h : List.Forall₂ R as bs) {a : α} {b : β}
    (hab : R a b) : a ∈ as ↔ b ∈ bs := by
  induction h with
  | nil => simp
  | @cons a' b' _ _ hab' _ ih =>
    have heq : a = a' ↔ b = b' := Relator.rel_eq hR hab hab'
    rw [List.mem_cons, List.mem_cons, ih, heq]

/-- What holds of all but the last on the one side holds so on the other. -/
lemma pairwise_of_forall₂ {P : α → Prop} {Q : β → Prop} (h : List.Forall₂ R as bs)
    (hR : ∀ a b, R a b → P a → Q b) (hP : as.Pairwise fun a _ => P a) :
    bs.Pairwise fun b _ => Q b := by
  induction h with
  | nil => exact .nil
  | @cons a b as bs hab hrest ih =>
    obtain ⟨ha, has⟩ := List.pairwise_cons.1 hP
    refine List.pairwise_cons.2 ⟨fun b' hb' => ?_, ih has⟩
    obtain ⟨a', ha', -⟩ := exists_mem_of_forall₂ hrest b' hb'
    exact hR a b hab (ha a' ha')

/-! ## Lists that are made -/

/-- To each part of a list something is related. -/
lemma exists_forall₂ (h : ∀ a ∈ as, ∃ b, R a b) : ∃ bs, List.Forall₂ R as bs := by
  induction as with
  | nil => exact ⟨[], .nil⟩
  | cons a as ih =>
    obtain ⟨⟨b, hb⟩, has⟩ := List.forall_mem_cons.1 h
    obtain ⟨bs, hbs⟩ := ih has
    exact ⟨b :: bs, .cons hb hbs⟩

/-- A list that is related to one in two parts is in two parts itself. -/
lemma exists_append_of_forall₂ {bs' : List β} (h : List.Forall₂ R as (bs ++ bs')) :
    ∃ as₁ as₂, List.Forall₂ R as₁ bs ∧ List.Forall₂ R as₂ bs' ∧ as = as₁ ++ as₂ := by
  induction bs generalizing as with
  | nil => exact ⟨[], as, .nil, h, rfl⟩
  | cons b bs ih =>
    obtain ⟨a, as, hab, hrest, rfl⟩ := List.forall₂_cons_right_iff.1 h
    obtain ⟨as₁, as₂, h₁, h₂, rfl⟩ := ih hrest
    exact ⟨a :: as₁, as₂, .cons hab h₁, h₂, rfl⟩

lemma rel_zipIdx (h : List.Forall₂ R as bs) (k : Nat) :
    List.Forall₂ (fun x y => R x.1 y.1 ∧ x.2 = y.2) (as.zipIdx k) (bs.zipIdx k) := by
  induction h generalizing k with
  | nil => exact .nil
  | cons hab _ ih => exact .cons ⟨hab, rfl⟩ (ih (k + 1))

lemma rel_zip {cs : List γ} {ds : List δ} (h : List.Forall₂ R as bs) (h' : List.Forall₂ S cs ds) :
    List.Forall₂ (fun x y => R x.1 y.1 ∧ S x.2 y.2) (as.zip cs) (bs.zip ds) := by
  induction h generalizing cs ds with
  | nil => exact .nil
  | cons hab _ ih =>
    cases h' with
    | nil => exact .nil
    | cons hcd hrest => exact .cons ⟨hab, hcd⟩ (ih hrest)

/-! ## Loops -/

lemma mapM_eq_of_forall₂ {ε : Type} {f : α → Except ε γ} {g : β → Except ε γ}
    (h : List.Forall₂ (fun a b => f a = g b) as bs) : as.mapM f = bs.mapM g := by
  induction h with
  | nil => rfl
  | cons hab _ ih => rw [List.mapM_cons, List.mapM_cons, hab, ih]

/-- A loop that succeeds has a result for each part. -/
lemma forall₂_of_mapM {ε : Type} {f : α → Except ε β} (h : as.mapM f = .ok bs) :
    List.Forall₂ (fun a b => f a = .ok b) as bs := by
  induction as generalizing bs with
  | nil =>
    obtain rfl := Except.ok.inj h
    exact .nil
  | cons a as ih =>
    simp only [List.mapM_cons, bind_eq_ok, pure_eq_ok] at h
    obtain ⟨b, hb, bs', hrest, rfl⟩ := h
    exact .cons hb (ih hrest)

lemma foldlM_eq_of_forall₂ {ε σ : Type} {f : σ → α → Except ε σ} {g : σ → β → Except ε σ}
    (h : List.Forall₂ (fun a b => ∀ s, f s a = g s b) as bs) (s : σ) :
    as.foldlM f s = bs.foldlM g s := by
  induction h generalizing s with
  | nil => rfl
  | cons hab _ ih =>
    rw [List.foldlM_cons, List.foldlM_cons, hab]
    exact congrArg _ (funext ih)

lemma findSome?_eq_of_forall₂ {f : α → Option γ} {g : β → Option γ}
    (h : List.Forall₂ (fun a b => f a = g b) as bs) : as.findSome? f = bs.findSome? g := by
  induction h with
  | nil => rfl
  | cons hab _ ih => rw [List.findSome?_cons, List.findSome?_cons, hab, ih]

end SsaFold
