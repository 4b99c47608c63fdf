import SsaFold.Proofs.Text.Phrase
import SsaFold.Text.Header

/-!
# What the reader of headers returns

A header that is read from valid tokens can be written again (`Header.read_valid`): no parameter is
`void`, linkage words are not taken for the return type, and an attribute is a word or a reference.
-/

namespace SsaFold.Text

/-- The text is a word or a reference to a group of attributes. -/
def IsAttr (s : String) : Prop :=
  IsWord s ∨ ∃ digits : String, (∀ c ∈ digits.toList, c.isDigit = true) ∧ s = "#" ++ digits

/-- The parameter is one that a header can hold. -/
structure Param.Valid (p : Param) : Prop where
  ty : p.ty.Readable
  not_void : p.ty ≠ .void
  name : ∀ s, p.name = some s → Quotable s

/-- The header is one that a line can hold. -/
structure Header.Valid (h : Header) : Prop where
  name : Quotable h.name
  returnType : h.returnType.Readable
  /-- The return type is the first type in the line. -/
  linkage : ∀ w ∈ h.linkage, IsWord w ∧ Ty.ofWord? w = none
  params : ∀ p ∈ h.params, p.Valid
  attrs : ∀ a ∈ h.attrs, IsAttr a

namespace Header

open Phrase

lemma readParams_valid {func : String} {place : Place} {ts rest : List Token} {ps : List Param}
    {vararg : Bool} (hts : ∀ t ∈ ts, t.Valid)
    (hplace : match place with
      | .name ty => ty.Readable ∧ ty ≠ .void
      | .start | .finish => True)
    (h : readParams func place ts = .ok ((ps, vararg), rest)) :
    (∀ p ∈ ps, p.Valid) ∧ ∀ t ∈ rest, t.Valid := by
  fun_induction readParams func place ts generalizing ps vararg rest with
  | case3 ts =>
    obtain ⟨heq, rfl⟩ := Prod.mk.inj (Except.ok.inj h)
    obtain ⟨rfl, -⟩ := Prod.mk.inj heq
    exact ⟨by simp, fun t ht => hts t (by simp [ht])⟩
  | case7 t ts _ ty hty hvoid ih =>
    exact ih (List.forall_mem_cons.1 hts).2 ⟨readable_of_typeOf hty, hvoid⟩ h
  | case8 ty name ts ih =>
    obtain ⟨hname, hts⟩ := List.forall_mem_cons.1 hts
    obtain ⟨⟨⟨ps', vararg'⟩, rest'⟩, hrest, heq⟩ := map_eq_ok_iff.1 h
    simp only [Prod.mk.injEq] at heq
    obtain ⟨⟨rfl, -⟩, rfl⟩ := heq
    obtain ⟨hps, hrest⟩ := ih hts trivial hrest
    refine ⟨List.forall_mem_cons.2 ⟨⟨hplace.1, hplace.2, ?_⟩, hps⟩, hrest⟩
    exact fun s hs => Option.some.inj hs ▸ hname
  | case9 ty n rest _ ih =>
    exact ih (fun t ht => hts t (by simp [ht])) hplace h
  | case10 ty word ts hnumber _ hatom ih =>
    rw [hatom] at h
    split at h
    · rename_i hword
      exact absurd (Token.word.inj hword) (hnumber _ _ rfl)
    · exact ih (List.forall_mem_cons.1 hts).2 hplace h
    all_goals simp_all
  | case11 ty ts =>
    obtain ⟨heq, rfl⟩ := Prod.mk.inj (Except.ok.inj h)
    obtain ⟨rfl, -⟩ := Prod.mk.inj heq
    refine ⟨?_, (List.forall_mem_cons.1 hts).2⟩
    simpa using (⟨hplace.1, hplace.2, by simp⟩ : Param.Valid ⟨ty, none⟩)
  | case12 ty ts _ ih =>
    obtain ⟨⟨⟨ps', vararg'⟩, rest'⟩, hrest, heq⟩ := map_eq_ok_iff.1 h
    simp only [Prod.mk.injEq] at heq
    obtain ⟨⟨rfl, -⟩, rfl⟩ := heq
    obtain ⟨hps, hrest⟩ := ih (List.forall_mem_cons.1 hts).2 trivial hrest
    exact ⟨List.forall_mem_cons.2 ⟨⟨hplace.1, hplace.2, by simp⟩, hps⟩, hrest⟩
  | case14 ts =>
    obtain ⟨heq, rfl⟩ := Prod.mk.inj (Except.ok.inj h)
    obtain ⟨rfl, -⟩ := Prod.mk.inj heq
    exact ⟨by simp, (List.forall_mem_cons.1 hts).2⟩
  | case15 ts ih => exact ih (List.forall_mem_cons.1 hts).2 trivial h
  | _ => simp_all

lemma paramList_yields (func : String) :
    (paramList func).Yields fun x => ∀ p ∈ x.1, p.Valid := by
  intro ts hts
  simp only [paramList]
  split
  · refine ⟨by simp [Reading.done], fun x rest hrun => ?_⟩
    simp only [Reading.done, Except.ok.injEq, Prod.mk.injEq] at hrun
    obtain ⟨rfl, rfl⟩ := hrun
    exact ⟨by simp, (List.forall_mem_cons.1 hts).2⟩
  · refine ⟨by simp [Reading.ofExcept], fun x rest hrun => ?_⟩
    exact readParams_valid hts trivial hrun

lemma takeAttrs_valid {ts : List Token} (hts : ∀ t ∈ ts, t.Valid) :
    (∀ a ∈ (takeAttrs ts).1, IsAttr a) ∧ ∀ t ∈ (takeAttrs ts).2, t.Valid := by
  fun_induction takeAttrs ts with
  | case1 w ts attrs rest heq ih =>
    obtain ⟨hw, hts⟩ := List.forall_mem_cons.1 hts
    rw [heq] at ih
    obtain ⟨hattrs, hrest⟩ := ih hts
    exact ⟨List.forall_mem_cons.2 ⟨.inl hw, hattrs⟩, hrest⟩
  | case2 digits ts attrs rest heq ih =>
    obtain ⟨hdigits, hts⟩ := List.forall_mem_cons.1 hts
    rw [heq] at ih
    obtain ⟨hattrs, hrest⟩ := ih hts
    exact ⟨List.forall_mem_cons.2 ⟨.inr ⟨digits, hdigits, rfl⟩, hattrs⟩, hrest⟩
  | case3 ts => exact ⟨by simp, hts⟩

lemma attrList_yields : attrList.Yields fun attrs => ∀ a ∈ attrs, IsAttr a := by
  intro ts hts
  refine ⟨by simp [attrList, Reading.done], fun x rest hrun => ?_⟩
  simp only [attrList, Reading.done, Except.ok.injEq] at hrun
  have := takeAttrs_valid hts
  rwa [hrun] at this

lemma end_yields {h : Header} (hh : h.Valid) : (do
    match ← peek with
    | some t => fail (.afterHeader t)
    | none => return h : Phrase Header).Yields Valid := by
  refine peek_yields.bind fun t _ => ?_
  split
  · exact yields_fail _
  · exact yields_pure hh

lemma phrase_yields (definition : Bool) : (phrase definition).Yields Header.Valid := by
  refine modifiers_yields.bind fun linkage hlinkage => type_yields.bind fun returnType hret => ?_
  refine next_yields.bind fun t ht => ?_
  cases t with
  | globalName name =>
    refine (yields_pure (Q := Quotable) ht).bind fun name hname =>
      (mark_yields _).bind fun _ _ => ?_
    refine (paramList_yields name).bind ?_
    rintro ⟨params, vararg⟩ hparams
    refine attrList_yields.bind fun attrs hattrs => ?_
    have hend := @end_yields ⟨name, returnType, linkage, params, vararg, attrs⟩
      ⟨hname, hret, hlinkage, hparams, hattrs⟩
    dsimp only
    split_ifs
    · exact (mark_yields _).bind fun _ _ => hend
    · exact hend
  | _ => exact (yields_fail (Q := fun _ => False) _).bind fun _ h => h.elim

/-- A header that is read from valid tokens is valid. -/
theorem read_valid {definition : Bool} {ts : List Token} {h : Header} (hts : ∀ t ∈ ts, t.Valid)
    (hrun : read definition ts = .ok h) : h.Valid := by
  obtain ⟨⟨h', rest⟩, hphrase, rfl⟩ := map_eq_ok_iff.1 hrun
  exact ((phrase_yields definition ts hts).2 h' rest hphrase).1

end Header
end SsaFold.Text
