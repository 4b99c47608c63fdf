import SsaFold.Proofs.Text.Forward
import SsaFold.Proofs.Text.Slots

/-!
# One name, one value

A name can be written at many places of a body: where it is defined, and where it is read, before
its definition and behind it (`Occurs`).  Does the same value stand at all of them?  A parameter
whose name is taken is refused, and so is a result with such a name.  But a result without a name
takes the next number and does not ask whether this number has been defined (`Body.Redefines`); a
number that is written out can set the counter back, and so this happens.

Nothing else can go wrong: if a text is read, then in each of its bodies a name is unambiguous
exactly if no unnamed result takes it again (`unambiguous_iff_of_ofText`).
-/

namespace SsaFold.Text

open SsaFold.Module

namespace Body

variable {b b' : Body} {n : String} {x : Site} {v : ValueId} {ts : List Token}
  {tss : List (List Token)} {u : Unit}

/-! ## Numbers that are defined twice -/

/-- An unnamed result takes the number, although it has been defined. -/
structure Redefines (b : Body) (ts : List Token) (n : String) : Prop where
  numbers : b.Numbers ts n
  defined : ∃ v, b.Settled n v

/-- A name that is defined was defined before, or the line defines it. -/
lemma Settled.origin (hv : b'.Settled n v) (h : b.Draft) (hts : ∀ t ∈ ts, t.Valid)
    (hrun : line ts b = .ok (u, b')) :
    b.Settled n v ∨ b.Mentions ts n (.result ⟨b.module.insts.size⟩) := by
  obtain ⟨hv, kind, hkind, hne⟩ := hv
  obtain ⟨s, hstays, -⟩ := line_carries h hts hrun
  -- A value that was there is what it was.
  have hold : b.values[n]? = some v → b.Settled n v := fun hold => by
    obtain ⟨kind', hkind', -⟩ := (h.values n v hold).own
    obtain rfl := Option.some.inj (hkind.symm.trans (hstays.module.keeps.kind? hkind'))
    exact ⟨hold, kind, hkind', hne⟩
  rcases line_cases h hts hrun with ⟨-, -, hvalues⟩ | ⟨name, s, inst, b₁, b₂, hline⟩
  · exact .inl (hold (hvalues ▸ hv))
  rw [hline.enters.values] at hv
  split_ifs at hv with hkey
  · exact .inr (hline.mentions_result.2 ⟨rfl, hkey⟩)
  · rcases hline.lookups.origin hv with hv | ⟨-, hplaceholder⟩
    · exact .inl (hold (hline.opened.2.1 ▸ hv))
    · have := hline.enters.stays.module.keeps.kind? hplaceholder
      exact absurd (Option.some.inj (hkind.symm.trans this)) hne

/-- The instruction of a line is there when the line has been read. -/
lemma exists_inst_of_mentions {i : InstId} (hx : b.Mentions ts n (.result i)) (h : b.Draft)
    (hts : ∀ t ∈ ts, t.Valid) (hrun : line ts b = .ok (u, b')) :
    ∃ inst, b'.module.inst? i = some inst := by
  rcases line_cases h hts hrun with ⟨hlabel, -⟩ | ⟨name, s, inst, b₁, b₂, hline⟩
  · exact absurd hx.isInstruction hlabel
  · obtain ⟨rfl, -⟩ := hline.mentions_result.1 hx
    obtain ⟨inst', hlive, -⟩ := hline.enters.live
    exact ⟨inst', hlive⟩

/-! ## Along the lines -/

/-- At the end of the lines, what a name stands for is at all its places. -/
lemma lines_holdsAt (h : b.Draft) (htss : ∀ ts ∈ tss, ∀ t ∈ ts, t.Valid)
    (hrun : lines tss b = .ok (u, b')) (hn : ¬ Somewhere (fun b ts => b.Retakes ts n) b tss)
    (hx : b.HoldsAt n x ∨ Somewhere (fun b ts => b.Mentions ts n x) b tss) : b'.HoldsAt n x := by
  refine lines_gather (I := Draft) (Q := fun b => b.HoldsAt n x)
    (fun b ts b' h hts hline hn => ⟨h.line hts hline, ?_⟩) h htss hrun hn hx
  rintro (hx | hx)
  · exact hx.line h hts hline hn
  · exact hx.holdsAt h hts hline hn

/-- At the end of the lines, a placeholder whose number has been taken is lost. -/
lemma lines_lost (h : b.Draft) (hb : b.Awaited) (htss : ∀ ts ∈ tss, ∀ t ∈ ts, t.Valid)
    (hrun : lines tss b = .ok (u, b'))
    (hn : Somewhere (fun b ts => b.Retakes ts n ∧ ∀ v, ¬ b.Settled n v) b tss) : b'.Lost := by
  refine lines_gather (I := fun b => b.Draft ∧ b.Awaited) (N := fun _ _ => False)
    (fun b ts b' ⟨h, hb⟩ hts hline _ => ⟨⟨h.line hts hline, hb.line h hts hline⟩, ?_⟩)
    ⟨h, hb⟩ htss hrun (not_somewhere fun _ _ => id) (.inr hn)
  rintro (hlost | ⟨hn, hwaits⟩)
  · exact hlost.line h hts hline
  · exact hn.lost h hb hts hline hwaits

lemma overtakes_of_retakes (hn : Somewhere (fun b ts => b.Retakes ts n) b tss)
    (honce : ¬ Somewhere (fun b ts => b.Redefines ts n) b tss) :
    Somewhere (fun b ts => b.Retakes ts n ∧ ∀ v, ¬ b.Settled n v) b tss := by
  induction hn with
  | here hn => exact .here ⟨hn, fun v hv => honce (.here ⟨hn.numbers, v, hv⟩)⟩
  | later hline _ ih => exact .later hline (ih fun h => honce (.later hline h))

/-- At the end of the lines, a name that is defined was defined before, or in one of them. -/
lemma lines_origin (h : b.Draft) (htss : ∀ ts ∈ tss, ∀ t ∈ ts, t.Valid)
    (hrun : lines tss b = .ok (u, b')) (hv : b'.Settled n v) :
    b.Settled n v ∨ ∃ i, Somewhere (fun b ts => b.Mentions ts n (.result i)) b tss := by
  induction tss generalizing b with
  | nil =>
    obtain ⟨-, rfl⟩ := StateT.pure_eq_ok.1 hrun
    exact .inl hv
  | cons ts tss ih =>
    obtain ⟨hts, htss⟩ := List.forall_mem_cons.1 htss
    obtain ⟨b₁, hline, hrest⟩ := lines_cons_eq_ok hrun
    rcases ih (h.line hts hline) htss hrest with hv₁ | ⟨i, hx⟩
    · exact (hv₁.origin h hts hline).imp_right fun hx => ⟨_, .here hx⟩
    · exact .inr ⟨i, .later hline hx⟩

/-- The results of lines that are still to be read are not there yet. -/
lemma inst?_of_somewhere {i : InstId} (h : b.Draft) (htss : ∀ ts ∈ tss, ∀ t ∈ ts, t.Valid)
    (hx : Somewhere (fun b ts => b.Mentions ts n (.result i)) b tss) : b.module.inst? i = none := by
  induction hx with
  | here hx => cases hx <;> exact inst?_of_size_le le_rfl
  | @later b b₁ ts tss hline _ ih =>
    obtain ⟨hts, htss⟩ := List.forall_mem_cons.1 htss
    have hnone := ih (h.line hts hline) htss
    by_contra hsome
    obtain ⟨inst, hinst⟩ := Option.ne_none_iff_exists'.1 hsome
    obtain ⟨s, hstays⟩ := line_stays h hts hline
    obtain ⟨inst', hinst', -⟩ := hstays.module.inst hinst
    simp [hnone] at hinst'

/-- So lines that come one after the other have different results. -/
lemma ne_of_later {i j : InstId} (h : b.Draft) (htss : ∀ ts' ∈ ts :: tss, ∀ t ∈ ts', t.Valid)
    (hrun : line ts b = .ok ((), b')) (hy : b.Mentions ts n (.result j))
    (hx : Somewhere (fun b ts => b.Mentions ts n (.result i)) b' tss) : j ≠ i := by
  obtain ⟨hts, htss⟩ := List.forall_mem_cons.1 htss
  rintro rfl
  obtain ⟨inst, hinst⟩ := exists_inst_of_mentions hy h hts hrun
  simp [inst?_of_somewhere (h.line hts hrun) htss hx] at hinst

/-- A number that is taken although it is defined has two definitions. -/
lemma exists_two_of_redefines (h : b.Draft) (htss : ∀ ts ∈ tss, ∀ t ∈ ts, t.Valid)
    (hn : Somewhere (fun b ts => b.Redefines ts n) b tss) :
    ∃ i, Somewhere (fun b ts => b.Mentions ts n (.result i)) b tss ∧
      ((∃ v, b.Settled n v) ∨
        ∃ j, j ≠ i ∧ Somewhere (fun b ts => b.Mentions ts n (.result j)) b tss) := by
  induction hn with
  | here hn => exact ⟨_, .here (.numbered hn.numbers), .inl hn.defined⟩
  | @later b b₁ ts tss hline _ ih =>
    obtain ⟨hts, htss'⟩ := List.forall_mem_cons.1 htss
    obtain ⟨i, hx, htwo⟩ := ih (h.line hts hline) htss'
    refine ⟨i, .later hline hx, ?_⟩
    rcases htwo with ⟨v, hv⟩ | ⟨j, hne, hy⟩
    · rcases hv.origin h hts hline with hv | hy
      · exact .inl ⟨v, hv⟩
      · exact .inr ⟨_, ne_of_later h htss hline hy hx, .here hy⟩
    · exact .inr ⟨j, hne, .later hline hy⟩

end Body

/-! ## Places of a name -/

variable {text : String} {symbols : Symbols} {m : Module} {d : Definition} {b : Body}
  {tss : List (List Token)} {n : String} {x : Site}

/-- The name is written at the place, or it is the number that the parameter or result there
takes. -/
inductive Occurs (d : Definition) (b : Body) (tss : List (List Token)) (n : String) : Site → Prop
  | param {k : Nat} (h : d.params[k]? = some (some n) ∨ b.HoldsAt n (.param k)) :
      Occurs d b tss n (.param k)
  | line {x : Site} (h : Body.Somewhere (fun b ts => b.Mentions ts n x) b tss) : Occurs d b tss n x

/-- At all places of the name stands one value, and one of these places is where it is defined. -/
def Unambiguous (m : Module) (d : Definition) (b : Body) (tss : List (List Token)) (n : String) :
    Prop :=
  ∃ y v, Occurs d b tss n y ∧ (y.kind? d.func).isSome ∧
    (∀ x, Occurs d b tss n x → m.valueAt? d.func x = some v) ∧
    ∀ x, Occurs d b tss n x → (x.kind? d.func).isSome → x = y

/-- A parameter is called what it is called in the header. -/
lemma holdsAt_param_of_start (hd : d.Fits m) (hrun : Body.start m symbols d.func d.params = .ok b)
    {k : Nat} (hname : d.params[k]? = some (some n)) : b.HoldsAt n (.param k) := by
  simp only [Body.start, bind_eq_ok, pure_eq_ok] at hrun
  obtain ⟨⟨u, _⟩, hparams, rfl⟩ := hrun
  obtain ⟨func, hfunc, -⟩ := hd.func
  obtain ⟨slot, values, rfl, -, -, hbound⟩ := Body.nameParams_eq_ok hparams hfunc
  obtain ⟨v, hparam, hv⟩ := hbound k n hname
  rw [Nat.zero_add] at hparam
  refine ⟨v, ?_, hv⟩
  rw [valueAt?, hfunc, Option.bind_some]
  exact hparam

lemma BodyOf.occurs (h : BodyOf text d b tss) (hx : Occurs d b tss n x) :
    b.HoldsAt n x ∨ Body.Somewhere (fun b ts => b.Mentions ts n x) b tss := by
  obtain ⟨symbols, m, ds, ls, last, after, -, -, hd, hstart, -⟩ := h.begins
  cases hx with
  | param h => exact .inl (h.elim (holdsAt_param_of_start hd hstart) id)
  | line h => exact .inr h

/-- A name that is defined at the beginning of a body is that of a parameter. -/
lemma BodyOf.exists_param (h : BodyOf text d b tss) {v : ValueId} (hv : b.Settled n v) :
    ∃ k, Occurs d b tss n (.param k) := by
  obtain ⟨symbols, m, ds, ls, last, after, -, -, hd, hstart, -⟩ := h.begins
  obtain ⟨k, hparam⟩ := Body.exists_param_of_start hd hstart hv.1
  exact ⟨k, .param (.inr ⟨v, hparam, hv.1⟩)⟩

/-- In a text that is read, a number is taken again only if it has been defined. -/
lemma BodyOf.not_retakes (h : BodyOf text d b tss) (hread : Module.ofText text = .ok m)
    (hn : ¬ Body.Somewhere (fun b ts => b.Redefines ts n) b tss) :
    ¬ Body.Somewhere (fun b ts => b.Retakes ts n) b tss := by
  intro hretakes
  obtain ⟨symbols, m₀, ds, ls, last, after, hreach, -⟩ := h.begins
  obtain ⟨⟨hb, htss⟩, -, b', hrun, -, -, symbols', ds', after', hreach'⟩ := h.read hread
  have hlost := Body.overtakes_of_retakes hretakes hn
  have hlost' : b'.Lost := Body.lines_lost hb hreach.awaited htss hrun hlost
  exact hreach'.ne_ok hlost' hread

/-- A name that is not taken again is defined at one of its places, and at all of them stands one
value. -/
lemma BodyOf.exists_value (hbody : BodyOf text d b tss) (hread : Module.ofText text = .ok m)
    (hn : ¬ Body.Somewhere (fun b ts => b.Redefines ts n) b tss) (hx : Occurs d b tss n x) :
    ∃ v, (∀ y, Occurs d b tss n y → m.valueAt? d.func y = some v) ∧
      ∃ y, Occurs d b tss n y ∧ (y.kind? d.func).isSome := by
  obtain ⟨⟨hb, htss⟩, -, b', hrun, hfunc, hend, symbols, ds, after, hreach⟩ := hbody.read hread
  have hretakes := hbody.not_retakes hread hn
  have hholds : ∀ y, Occurs d b tss n y → b'.HoldsAt n y := fun y hy =>
    Body.lines_holdsAt hb htss hrun hretakes (hbody.occurs hy)
  obtain ⟨v, -, hv⟩ := hholds x hx
  -- At the end of the body the name is defined, and what it stands for stays where it is.
  obtain ⟨⟨hb', -⟩, -⟩ := hreach.sound
  obtain ⟨kind, hkind, -⟩ := (hb'.values n v hv).own
  have hne : kind ≠ .placeholder := fun heq =>
    (Body.closed_of_endError? hend).defined n v hv (heq ▸ hkind)
  refine ⟨v, fun y hy => ?_, ?_⟩
  · obtain ⟨w, hw, hname⟩ := hholds y hy
    obtain rfl := Option.some.inj (hv.symm.trans hname)
    rw [hfunc] at hw
    exact hreach.valueAt? hread hw hkind hne
  · rcases Body.lines_origin hb htss hrun ⟨hv, kind, hkind, hne⟩ with hv | ⟨i, hi⟩
    · obtain ⟨k, hk⟩ := hbody.exists_param hv
      exact ⟨_, hk, rfl⟩
    · exact ⟨_, .line hi, rfl⟩

/-- In a text that is read, a name is unambiguous in a body exactly if no unnamed result takes it
after it has been defined. -/
theorem unambiguous_iff_of_ofText (hread : Module.ofText text = .ok m) (hbody : BodyOf text d b tss)
    (hx : Occurs d b tss n x) :
    Unambiguous m d b tss n ↔ ¬ Body.Somewhere (fun b ts => b.Redefines ts n) b tss := by
  constructor
  · rintro ⟨y, v, -, -, -, hone⟩ hn
    obtain ⟨⟨hb, htss⟩, -⟩ := hbody.read hread
    obtain ⟨i, hi, htwo⟩ := Body.exists_two_of_redefines hb htss hn
    have hfirst := hone _ (.line hi) rfl
    rcases htwo with ⟨w, hw⟩ | ⟨j, hne, hj⟩
    · obtain ⟨k, hk⟩ := hbody.exists_param hw
      cases hfirst.trans (hone _ hk rfl).symm
    · exact hne (Site.result.inj ((hone _ (.line hj) rfl).trans hfirst.symm))
  · intro hn
    obtain ⟨v, hplaces, y, hy, hdefines⟩ := hbody.exists_value hread hn hx
    have hm := complete_ofText hread
    exact ⟨y, v, hy, hdefines, hplaces, fun z hz hzdefines =>
      site_unique hm.draft hm.intact.shaped hzdefines hdefines (hplaces z hz) (hplaces y hy)⟩

/-- A name that is no number is never taken by an unnamed result. -/
lemma not_redefines_of_kept (hn : keptName n ≠ none) (b : Body) (ts : List Token) :
    ¬ b.Redefines ts n := by
  rintro ⟨⟨op, s, c, b₁, -, -, -, rfl⟩, -⟩
  exact hn (keptName_toString _)

/-- The name of the second sum has one meaning, in front of it and at it. -/
theorem unambiguous_lateText :
    ∃ m d b, Module.ofText lateText = .ok m ∧ BodyOf lateText d b lateLines ∧
    (∃ x, Occurs d b lateLines "a" x) ∧ Unambiguous m d b lateLines "a" := by
  obtain ⟨m, d, b, hread, hbody⟩ := exists_bodyOf_lateText
  have hx : Occurs d b lateLines "a" (.operand ⟨b.module.insts.size⟩ 0) :=
    .line (.here (.operand ⟨_, _, rfl, rfl⟩ rfl))
  have hn : keptName "a" ≠ none := by decide
  exact ⟨m, d, b, hread, hbody, ⟨_, hx⟩, (unambiguous_iff_of_ofText hread hbody hx).2
    (Body.not_somewhere (not_redefines_of_kept hn))⟩

/-- A text in which a label sets the counter back, so that a sum takes a number that is defined. -/
def retakenText : String :=
  "define i32 @f() \x7b\n  %5 = add i32 1, 2\n  %6 = mul i32 %5, 2\n  br label %4\n" ++
  "4:\n  add i32 5, 6\n  ret i32 %5\n\x7d\n"

/-- The lines of its body. -/
def retakenLines : List (List Token) :=
  [[.localName "5", .punct '=', .word "add", .word "i32", .int 1, .punct ',', .int 2],
   [.localName "6", .punct '=', .word "mul", .word "i32", .localName "5", .punct ',', .int 2],
   [.word "br", .word "label", .localName "4"],
   [.label "4"],
   [.word "add", .word "i32", .int 5, .punct ',', .int 6],
   [.word "ret", .word "i32", .localName "5"]]

/-- So a name need not be unambiguous. -/
theorem not_forall_unambiguous : ¬ ∀ text m d b tss n x, Module.ofText text = .ok m →
    BodyOf text d b tss → Occurs d b tss n x → Unambiguous m d b tss n := by
  intro h
  obtain ⟨m, d, b, hread, hbody⟩ : ∃ m d b, Module.ofText retakenText = .ok m ∧
      BodyOf retakenText d b retakenLines :=
    exists_bodyOf_of_lines [.word "i32", .globalName "f", .punct '(', .punct ')', .punct '\x7b']
      (by decide +kernel) (by decide +kernel) (by decide)
  obtain ⟨⟨hb, htss⟩, -, b', hrun, -⟩ := hbody.read hread
  obtain ⟨b₁, hline₁, hrun⟩ := Body.lines_cons_eq_ok hrun
  obtain ⟨b₂, hline₂, hrun⟩ := Body.lines_cons_eq_ok hrun
  obtain ⟨b₃, hline₃, hrun⟩ := Body.lines_cons_eq_ok hrun
  obtain ⟨b₄, hline₄, hrun⟩ := Body.lines_cons_eq_ok hrun
  have hfirst : b.Mentions retakenLines[0] "5" (.result ⟨b.module.insts.size⟩) :=
    .named ⟨_, _, rfl, rfl⟩
  -- The label sets the counter behind `4`, and so the last sum takes the name of the first one.
  obtain ⟨hfour, c, hopen⟩ := Body.counts_of_label hline₄
  obtain ⟨-, hslot⟩ := hfour.digits 4 (by decide)
  rw [if_pos (by decide)] at hslot
  have hlast : b₄.Mentions retakenLines[4] "5" (.result ⟨b₄.module.insts.size⟩) :=
    .numbered ⟨_, _, c, b₄, ⟨_, _, rfl, rfl⟩, by decide, hopen.openBlock, by rw [hslot]; decide⟩
  have hlater : Body.Somewhere (fun b ts => b.Mentions ts "5" (.result ⟨b₄.module.insts.size⟩)) b₁
      (retakenLines.drop 1) := .later hline₂ (.later hline₃ (.later hline₄ (.here hlast)))
  have hx : Occurs d b retakenLines "5" (.result ⟨b.module.insts.size⟩) := .line (.here hfirst)
  have hy : Occurs d b retakenLines "5" (.result ⟨b₄.module.insts.size⟩) :=
    .line (.later hline₁ hlater)
  obtain ⟨z, v, -, -, -, hone⟩ := h retakenText m d b retakenLines "5" _ hread hbody hx
  have hsame := Site.result.inj ((hone _ hx rfl).trans (hone _ hy rfl).symm)
  exact Body.ne_of_later hb htss hline₁ hfirst hlater hsame

end SsaFold.Text
