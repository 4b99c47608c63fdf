import Mathlib.Tactic.Common
import SsaFold.Module.Fault

/-!
# Outcomes

Operations answer in `Except`.  The lemmas below read off what a successful sequence of steps
has done, and build the success of a loop from the success of its steps.  Steps may hand on a
state besides.
-/

namespace SsaFold

section Inversion

variable {ε α β : Type}

@[simp] lemma bind_eq_ok {x : Except ε α} {f : α → Except ε β} {b : β} :
    (x >>= f) = .ok b ↔ ∃ a, x = .ok a ∧ f a = .ok b := by
  cases x <;> simp [bind, Except.bind]

@[simp] lemma map_eq_ok {x : Except ε α} {f : α → β} {b : β} :
    (f <$> x) = .ok b ↔ ∃ a, x = .ok a ∧ f a = b := by
  cases x <;> simp [Functor.map, Except.map]

@[simp] lemma pure_eq_ok {a b : α} : (pure a : Except ε α) = .ok b ↔ a = b := by
  simp [pure, Except.pure]

@[simp] lemma throw_eq_ok {e : ε} {b : α} : (throw e : Except ε α) = .ok b ↔ False := by
  simp [throw, throwThe, MonadExceptOf.throw]

@[simp] lemma ok_bind {a : α} {f : α → Except ε β} : (Except.ok a >>= f) = f a := rfl

@[simp] lemma mapError_eq_ok {δ : Type} {x : Except ε α} {f : ε → δ} {a : α} :
    x.mapError f = .ok a ↔ x = .ok a := by
  cases x <;> simp [Except.mapError]

/-- An operation on a module that succeeds does so where faults are failures, too. -/
@[simp] lemma liftM_eq_ok {x : Except Fault α} {a : α} :
    (liftM x : Except (Failure ε) α) = .ok a ↔ x = .ok a :=
  mapError_eq_ok

lemma toOption_eq_some {x : Except ε α} {a : α} : x.toOption = some a ↔ x = .ok a := by
  cases x <;> simp [Except.toOption]

/-- What can be seen of an outcome tells that there is one. -/
lemma toOption_map_eq_some {x : Except ε α} {f : α → β} {b : β} :
    x.toOption.map f = some b ↔ ∃ a, x = .ok a ∧ f a = b := by
  cases x <;> simp [Except.toOption]

lemma bind_eq_error {x : Except ε α} {f : α → Except ε β} {e : ε} :
    (x >>= f) = .error e ↔ x = .error e ∨ ∃ a, x = .ok a ∧ f a = .error e := by
  cases x <;> simp [bind, Except.bind]

lemma mapError_eq_error {δ : Type} {x : Except ε α} {f : ε → δ} {d : δ} :
    x.mapError f = .error d ↔ ∃ e, x = .error e ∧ f e = d := by
  cases x <;> simp [Except.mapError]

/-- An operation on a module faults, but does not refuse. -/
@[simp] lemma liftM_eq_refusal {x : Except Fault α} {e : ε} :
    (liftM x : Except (Failure ε) α) = .error (.error e) ↔ False := by
  cases x with
  | ok a => exact iff_false_intro nofun
  | error f => exact iff_false_intro nofun

lemma forM_eq_ok {f : α → Except ε Unit} {as : List α} :
    as.forM f = .ok () ↔ ∀ a ∈ as, f a = .ok () := by
  induction as with
  | nil => simp [pure, Except.pure]
  | cons a rest ih =>
    show (f a >>= fun _ => rest.forM f) = .ok () ↔ _
    rw [bind_eq_ok, List.forall_mem_cons, ih]
    constructor
    · rintro ⟨⟨⟩, ha, hrest⟩
      exact ⟨ha, hrest⟩
    · rintro ⟨ha, hrest⟩
      exact ⟨⟨⟩, ha, hrest⟩

/-- A check of several things that fails has come to the first one that fails. -/
lemma forM_eq_error {f : α → Except ε Unit} {as : List α} {e : ε} :
    as.forM f = .error e ↔ ∃ before a after, as = before ++ a :: after ∧
      (∀ x ∈ before, f x = .ok ()) ∧ f a = .error e := by
  induction as with
  | nil => simp [pure, Except.pure]
  | cons a rest ih =>
    show (f a >>= fun _ => rest.forM f) = .error e ↔ _
    constructor
    · intro h
      cases ha : f a with
      | error e' =>
        rw [ha] at h
        exact ⟨[], a, rest, rfl, by simp, ha.trans h⟩
      | ok u =>
        rw [ha] at h
        obtain ⟨before, x, after, rfl, hbefore, hx⟩ := ih.1 h
        exact ⟨a :: before, x, after, rfl, List.forall_mem_cons.2 ⟨ha, hbefore⟩, hx⟩
    · rintro ⟨before, x, after, heq, hbefore, hx⟩
      cases before with
      | nil =>
        obtain ⟨rfl, -⟩ := List.cons.inj heq
        rw [hx]
        rfl
      | cons y before =>
        obtain ⟨rfl, rfl⟩ := List.cons.inj heq
        obtain ⟨hy, hbefore⟩ := List.forall_mem_cons.1 hbefore
        rw [hy]
        exact ih.2 ⟨before, x, after, rfl, hbefore, hx⟩

end Inversion

/-! ## Steps with a state -/

namespace StateT

variable {ε σ α β : Type} {s t u : σ}

@[simp] lemma bind_eq_ok {x : StateT σ (Except ε) α} {f : α → StateT σ (Except ε) β} {b : β} :
    (x >>= f) s = .ok (b, t) ↔ ∃ a u, x s = .ok (a, u) ∧ f a u = .ok (b, t) := by
  refine SsaFold.bind_eq_ok.trans ⟨?_, ?_⟩
  · rintro ⟨⟨a, u⟩, hx, hf⟩
    exact ⟨a, u, hx, hf⟩
  · rintro ⟨a, u, hx, hf⟩
    exact ⟨⟨a, u⟩, hx, hf⟩

@[simp] lemma pure_eq_ok {a b : α} :
    (pure a : StateT σ (Except ε) α) s = .ok (b, t) ↔ a = b ∧ s = t := by
  show Except.ok (a, s) = Except.ok (b, t) ↔ _
  rw [Except.ok.injEq, Prod.mk.injEq]

@[simp] lemma map_eq_ok {x : StateT σ (Except ε) α} {f : α → β} {b : β} :
    (f <$> x) s = .ok (b, t) ↔ ∃ a, x s = .ok (a, t) ∧ f a = b := by
  refine SsaFold.bind_eq_ok.trans ⟨?_, ?_⟩
  · rintro ⟨⟨a, u⟩, hx, hf⟩
    obtain ⟨rfl, rfl⟩ := Prod.mk.inj (SsaFold.pure_eq_ok.1 hf)
    exact ⟨a, hx, rfl⟩
  · rintro ⟨a, hx, rfl⟩
    exact ⟨⟨a, t⟩, hx, rfl⟩

@[simp] lemma get_eq_ok : (get : StateT σ (Except ε) σ) s = .ok (u, t) ↔ s = u ∧ s = t := by
  show Except.ok (s, s) = Except.ok (u, t) ↔ _
  rw [Except.ok.injEq, Prod.mk.injEq]

lemma get_bind {f : σ → StateT σ (Except ε) α} : (get >>= f) s = f s s := rfl

@[simp] lemma set_eq_ok {a : PUnit} :
    (set u : StateT σ (Except ε) PUnit) s = .ok (a, t) ↔ u = t := by
  show Except.ok (PUnit.unit, u) = Except.ok (a, t) ↔ _
  simp

@[simp] lemma modifyGet_eq_ok {f : σ → α × σ} {a : α} :
    (modifyGet f : StateT σ (Except ε) α) s = .ok (a, t) ↔ f s = (a, t) := by
  show Except.ok (f s) = Except.ok (a, t) ↔ _
  rw [Except.ok.injEq]

@[simp] lemma modify_eq_ok {f : σ → σ} {a : PUnit} :
    (modify f : StateT σ (Except ε) PUnit) s = .ok (a, t) ↔ f s = t := by
  simp [modify, modifyGet_eq_ok]

@[simp] lemma throw_eq_ok {e : ε} {a : α} :
    (throw e : StateT σ (Except ε) α) s = .ok (a, t) ↔ False := by
  show Except.error e = Except.ok (a, t) ↔ _
  simp

/-- A step without a state leaves the state alone. -/
@[simp] lemma lift_eq_ok {x : Except ε α} {a : α} :
    (liftM x : StateT σ (Except ε) α) s = .ok (a, t) ↔ x = .ok a ∧ s = t := by
  cases x with
  | error e =>
    show Except.error e = Except.ok (a, t) ↔ _
    simp
  | ok b =>
    show Except.ok (b, s) = Except.ok (a, t) ↔ _
    simp

/-- So does an operation on a module where faults are failures. -/
@[simp] lemma liftM_eq_ok {x : Except Fault α} {a : α} :
    (liftM x : StateT σ (Except (Failure ε)) α) s = .ok (a, t) ↔ x = .ok a ∧ s = t := by
  cases x with
  | error e =>
    show Except.error (Failure.fault e) = Except.ok (a, t) ↔ _
    simp
  | ok b =>
    show Except.ok (b, s) = Except.ok (a, t) ↔ _
    simp

end StateT

/-! ## Faults -/

section Faults

variable {ε σ α β : Type}

/-- The work does not end in a fault: it succeeds, or refuses. -/
def Faultless (x : Except (Failure ε) α) : Prop := ∀ f, x ≠ .error (.fault f)

lemma faultless_ok (a : α) : Faultless (.ok a : Except (Failure ε) α) := by simp [Faultless]

lemma faultless_refusal (e : ε) : Faultless (.error (.error e) : Except (Failure ε) α) := by
  simp [Faultless]

lemma bind_eq_fault {x : Except (Failure ε) α} {f : α → Except (Failure ε) β} {e : Fault} :
    (x >>= f) = .error (.fault e) ↔
      x = .error (.fault e) ∨ ∃ a, x = .ok a ∧ f a = .error (.fault e) :=
  bind_eq_error

lemma Faultless.bind {x : Except (Failure ε) α} {f : α → Except (Failure ε) β} (hx : Faultless x)
    (hf : ∀ a, x = .ok a → Faultless (f a)) : Faultless (x >>= f) := by
  intro e he
  rcases bind_eq_fault.1 he with he | ⟨a, ha, he⟩
  · exact hx e he
  · exact hf a ha e he

/-- Restating a refusal leaves a fault as it is. -/
lemma mapError_eq_fault {δ : Type} {x : Except (Failure ε) α} {f : ε → δ} {e : Fault} :
    x.mapError (·.map f) = .error (.fault e) ↔ x = .error (.fault e) := by
  rcases x with (_ | _) | _ <;> simp [Except.mapError, Failure.map]

/-- What can only refuse does not fault. -/
lemma faultless_mapError {δ : Type} {x : Except ε α} {f : ε → δ} :
    Faultless (x.mapError fun e => .error (f e)) := by
  cases x <;> simp [Faultless, Except.mapError]

lemma faultless_liftM {x : Except Fault α} {a : α} (h : x = .ok a) :
    Faultless (liftM x : Except (Failure ε) α) := by
  subst h
  exact faultless_ok a

/-- The work is not refused: it succeeds, or ends in a fault. -/
def Unrefused (x : Except (Failure ε) α) : Prop := ∀ e, x ≠ .error (.error e)

lemma unrefused_ok (a : α) : Unrefused (.ok a : Except (Failure ε) α) := by simp [Unrefused]

lemma unrefused_fault (f : Fault) : Unrefused (.error (.fault f) : Except (Failure ε) α) := by
  simp [Unrefused]

lemma Unrefused.bind {x : Except (Failure ε) α} {f : α → Except (Failure ε) β} (hx : Unrefused x)
    (hf : ∀ a, x = .ok a → Unrefused (f a)) : Unrefused (x >>= f) := by
  intro e he
  rcases bind_eq_error.1 he with he | ⟨a, ha, he⟩
  · exact hx e he
  · exact hf a ha e he

/-- Work that neither faults nor is refused succeeds. -/
lemma Faultless.exists_eq_ok {x : Except (Failure ε) α} (h : Faultless x) (hx : Unrefused x) :
    ∃ a, x = .ok a := by
  rcases x with (f | e) | a
  · exact absurd rfl (h f)
  · exact absurd rfl (hx e)
  · exact ⟨a, rfl⟩

namespace StateT

variable {s : σ} {x : StateT σ (Except (Failure ε)) α} {f : α → StateT σ (Except (Failure ε)) β}

lemma bind_eq_fault {e : Fault} : (x >>= f) s = .error (.fault e) ↔
    x s = .error (.fault e) ∨ ∃ a t, x s = .ok (a, t) ∧ f a t = .error (.fault e) := by
  refine SsaFold.bind_eq_fault.trans (or_congr_right ⟨?_, ?_⟩)
  · rintro ⟨⟨a, t⟩, hx, hf⟩
    exact ⟨a, t, hx, hf⟩
  · rintro ⟨a, t, hx, hf⟩
    exact ⟨⟨a, t⟩, hx, hf⟩

lemma faultless_bind (hx : Faultless (x s)) (hf : ∀ a t, x s = .ok (a, t) → Faultless (f a t)) :
    Faultless ((x >>= f) s) :=
  Faultless.bind hx fun _ ha => hf _ _ ha

/-- Reading the state does not fault. -/
lemma faultless_get_bind {f : σ → StateT σ (Except (Failure ε)) β} (hf : Faultless (f s s)) :
    Faultless ((get >>= f) s) :=
  faultless_bind (faultless_ok _) fun _ _ h => by
    obtain ⟨rfl, rfl⟩ := get_eq_ok.1 h
    exact hf

/-- An operation on a module that succeeds does not fault where faults are failures. -/
lemma faultless_liftM_bind {y : Except Fault α} {a : α} (hy : y = .ok a) (hf : Faultless (f a s)) :
    Faultless ((liftM y >>= f) s) := by
  subst hy
  exact hf

lemma unrefused_bind (hx : Unrefused (x s)) (hf : ∀ a t, x s = .ok (a, t) → Unrefused (f a t)) :
    Unrefused ((x >>= f) s) :=
  Unrefused.bind hx fun _ ha => hf _ _ ha

/-- An operation on a module does not refuse. -/
lemma unrefused_liftM_bind {y : Except Fault α} (hf : ∀ a, y = .ok a → Unrefused (f a s)) :
    Unrefused ((liftM y >>= f) s) := by
  cases y with
  | error x => exact unrefused_fault x
  | ok a => exact hf a rfl

end StateT

end Faults

/-! ## Loops -/

section Loops

variable {ε σ α : Type}

/-- A loop succeeds if every step does in a state that satisfies the invariant, which may speak of
what is still to come. -/
lemma foldlM_ok {f : σ → α → Except ε σ} (P : List α → σ → Prop)
    (step : ∀ a rest s, P (a :: rest) s → ∃ t, f s a = .ok t ∧ P rest t) :
    ∀ (as : List α) (s : σ), P as s → ∃ t, as.foldlM f s = .ok t ∧ P [] t := by
  intro as
  induction as with
  | nil =>
    intro s hs
    exact ⟨s, rfl, hs⟩
  | cons a rest ih =>
    intro s hs
    obtain ⟨t, ht, hPt⟩ := step a rest s hs
    obtain ⟨u, hu, hPu⟩ := ih t hPt
    exact ⟨u, by simp [List.foldlM_cons, ht, hu], hPu⟩

/-- A loop that fails does so at one of its steps. -/
lemma foldlM_eq_error {f : σ → α → Except ε σ} {as : List α} {s : σ} {e : ε} :
    as.foldlM f s = .error e ↔ ∃ before a after t, as = before ++ a :: after ∧
      before.foldlM f s = .ok t ∧ f t a = .error e := by
  constructor
  · intro hrun
    induction as generalizing s with
    | nil => cases hrun
    | cons a rest ih =>
      rw [List.foldlM_cons] at hrun
      cases ha : f s a with
      | error e' =>
        rw [ha] at hrun
        exact ⟨[], a, rest, s, rfl, rfl, ha.trans hrun⟩
      | ok t =>
        rw [ha, ok_bind] at hrun
        obtain ⟨before, b, after, u, rfl, hbefore, hb⟩ := ih hrun
        exact ⟨a :: before, b, after, u, rfl, by rw [List.foldlM_cons, ha, ok_bind, hbefore], hb⟩
  · rintro ⟨before, a, after, t, rfl, hbefore, ha⟩
    rw [List.foldlM_append, hbefore, ok_bind, List.foldlM_cons, ha]
    rfl

/-- What every step keeps holds at the end of a loop that succeeds. -/
lemma foldlM_keeps {f : σ → α → Except ε σ} {P : σ → Prop}
    (step : ∀ s a t, P s → f s a = .ok t → P t) {as : List α} {s t : σ} (hs : P s)
    (hrun : as.foldlM f s = .ok t) : P t := by
  induction as generalizing s with
  | nil => exact Except.ok.inj hrun ▸ hs
  | cons a rest ih =>
    rw [List.foldlM_cons, bind_eq_ok] at hrun
    obtain ⟨u, hu, hrest⟩ := hrun
    exact ih (step s a u hs hu) hrest

/-- So does what every step keeps that the loop comes to. -/
lemma foldlM_keeps_mem {f : σ → α → Except ε σ} {P : σ → Prop} {as : List α}
    (step : ∀ s, ∀ a ∈ as, ∀ t, P s → f s a = .ok t → P t) {s t : σ} (hs : P s)
    (hrun : as.foldlM f s = .ok t) : P t := by
  induction as generalizing s with
  | nil => exact Except.ok.inj hrun ▸ hs
  | cons a rest ih =>
    rw [List.foldlM_cons, bind_eq_ok] at hrun
    obtain ⟨u, hu, hrest⟩ := hrun
    exact ih (fun s b hb => step s b (List.mem_cons_of_mem a hb))
      (step s a List.mem_cons_self u hs hu) hrest

/-- What every step commutes with, a loop commutes with. -/
lemma foldlM_map_state {f : σ → α → Except ε σ} (g : σ → σ)
    (step : ∀ s a, f (g s) a = (f s a).map g) (as : List α) (s : σ) :
    as.foldlM f (g s) = (as.foldlM f s).map g := by
  induction as generalizing s with
  | nil => rfl
  | cons a rest ih =>
    rw [List.foldlM_cons, List.foldlM_cons, step]
    cases f s a with
    | error e => rfl
    | ok t => exact ih t

/-- A loop over the numbers below `n`. -/
lemma foldlM_range_ok {f : σ → Nat → Except ε σ} (P : Nat → σ → Prop) (n : Nat)
    (step : ∀ k s, k < n → P k s → ∃ t, f s k = .ok t ∧ P (k + 1) t) :
    ∀ s, P 0 s → ∃ t, (List.range n).foldlM f s = .ok t ∧ P n t := by
  induction n with
  | zero =>
    intro s hs
    exact ⟨s, rfl, hs⟩
  | succ n ih =>
    intro s hs
    obtain ⟨t, ht, hPt⟩ := ih (fun k s hk => step k s (by omega)) s hs
    obtain ⟨u, hu, hPu⟩ := step n t (by omega) hPt
    refine ⟨u, ?_, hPu⟩
    rw [List.range_succ, List.foldlM_append, ht]
    simp [hu]

end Loops

end SsaFold
