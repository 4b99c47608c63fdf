import SsaFold.Proofs.Text.OneBody

/-!
# Reads in front of a definition

A name that is read before it is defined stands for a placeholder, and this placeholder is read
(`Body.Awaited`).  A result with this name takes its place.  A result without a name does not ask
whether its number is waited for: it takes the number, and from then on no name stands for the
placeholder (`Body.Lost`).  No later line gets at it, in this body or in another, so it is still
read at the end, and the check of the module refuses the text (`forward_reads`).
-/

namespace SsaFold

namespace Module

variable {m m' : Module} {g : FuncId} {s : ValueId → ValueId} {w : ValueId}

/-- The value is a placeholder that an instruction reads. -/
structure Dangles (m : Module) (w : ValueId) : Prop where
  kind : m.kind? w = some .placeholder
  read : ∃ i inst, m.inst? i = some inst ∧ w ∈ inst.operandValues

/-- A placeholder that is not renamed goes on to be read. -/
lemma Dangles.extends (h : m.Dangles w) (hm : m.Extends g s m') (hw : s w = w) : m'.Dangles w := by
  obtain ⟨i, inst, hi, hmem⟩ := h.read
  obtain ⟨inst', hi', hbare⟩ := hm.inst hi
  refine ⟨hm.keeps.kind? h.kind, i, inst', hi', ?_⟩
  rw [Inst.operandValues_eq_of_bare hbare, Inst.operandValues_rename]
  exact List.mem_map.2 ⟨w, hmem, hw⟩

lemma dangles_of_valueAt? {f : FuncId} {i : InstId} {k : Nat}
    (hkind : m.kind? w = some .placeholder) (hw : m.valueAt? f (.operand i k) = some w) :
    m.Dangles w := by
  obtain ⟨inst, hi, hoperand⟩ := Option.bind_eq_some_iff.1 hw
  exact ⟨hkind, i, inst, hi, List.mem_of_getElem? hoperand⟩

end Module

namespace Text.Body

open SsaFold.Module

variable {b b' : Body} {n : String} {v : ValueId} {ts : List Token} {u : Unit}

/-! ## What a name came from -/

/-- What lookups make a name stand for is a new placeholder. -/
lemma Lookups.origin (h : Lookups b b') (hv : b'.values[n]? = some v) : b.values[n]? = some v ∨
    b.module.value? v = none ∧ b'.module.kind? v = some .placeholder := by
  induction h with
  | refl => exact .inl hv
  | @tail b₁ b₂ hsteps hstep ih =>
    have hkeeps := hstep.widens.module.keeps
    by_cases hold : b₁.values[n]? = some v
    · exact (ih hold).imp_right fun ⟨hnew, hkind⟩ => ⟨hnew, hkeeps.kind? hkind⟩
    · cases hstep with
      | @forward name ty unbound _ _ =>
        rw [getElem?_insert] at hv
        split_ifs at hv with hname
        · obtain rfl := Option.some.inj hv
          have hnew := value?_pushValue_self b₁.module
            { kind := .placeholder, ty, name := keptName name }
          refine .inr ⟨?_, kind?_eq_some.2 ⟨_, hnew, rfl⟩⟩
          by_contra hsome
          obtain ⟨value, hvalue⟩ := Option.ne_none_iff_exists'.1 hsome
          have := (Lookups.widens hsteps).value hvalue
          simp [value?] at this
        · exact absurd hv hold
      | label _ => exact absurd hv hold
      | constant _ => exact absurd hv hold
      | null => exact absurd hv hold

/-- A name that is met is one that was met before, or one that the line writes. -/
lemma line_mentions (h : b.Draft) (hts : ∀ t ∈ ts, t.Valid) (hrun : line ts b = .ok (u, b'))
    (hv : b'.values[n]? = some v) : (∃ w, b.values[n]? = some w) ∨ ∃ x, b.Mentions ts n x := by
  rcases line_cases h hts hrun with ⟨-, -, hvalues⟩ | ⟨name, s, inst, b₁, b₂, hline⟩
  · exact .inl ⟨v, hvalues ▸ hv⟩
  rw [hline.enters.values] at hv
  split_ifs at hv with hkey
  · exact .inr ⟨_, hline.mentions_result.2 ⟨rfl, hkey⟩⟩
  · by_contra hnot
    obtain ⟨hunmet, hunwritten⟩ := not_or.1 hnot
    have hnone : b₁.values[n]? = none := by
      rw [hline.opened.2.1]
      by_contra hsome
      exact hunmet (Option.ne_none_iff_exists'.1 hsome)
    have hnone₂ := hline.unmet n hnone fun a ha hatom => hunwritten ?_
    · rw [hnone₂] at hv
      cases hv
    · obtain ⟨op, hparses⟩ := hline.parses
      obtain ⟨k, hk⟩ := List.mem_iff_getElem?.1 ha
      obtain ⟨ty, atom⟩ := a
      obtain rfl : atom = .localName n := hatom
      exact ⟨_, .operand hparses hk⟩

/-- The name of a result is no placeholder's. -/
lemma kind?_of_mentions_result {i : InstId} (hx : b.Mentions ts n (.result i)) (h : b.Draft)
    (hts : ∀ t ∈ ts, t.Valid) (hrun : line ts b = .ok (u, b')) (hv : b'.values[n]? = some v) :
    b'.module.kind? v = some (.inst i) := by
  rcases line_cases h hts hrun with ⟨hlabel, -⟩ | ⟨name, s, inst, b₁, b₂, hline⟩
  · exact absurd hx.isInstruction hlabel
  · obtain ⟨rfl, hkey⟩ := hline.mentions_result.1 hx
    rw [hline.enters.values, if_pos hkey] at hv
    obtain rfl := Option.some.inj hv
    exact (hline.result (h.line hts hrun)).2

/-! ## Names that are waited for -/

/-- The placeholders that names stand for are read where these names are written. -/
def Awaited (b : Body) : Prop :=
  ∀ (n : String) v, b.values[n]? = some v → b.module.kind? v = some .placeholder →
    ∃ i k, b.HoldsAt n (.operand i k)

lemma Awaited.line (hb : b.Awaited) (h : b.Draft) (hts : ∀ t ∈ ts, t.Valid)
    (hrun : line ts b = .ok (u, b')) : b'.Awaited := by
  intro n v hv hkind
  have hresult : ∀ i, ¬ b.Mentions ts n (.result i) := fun i hx => by
    have := kind?_of_mentions_result hx h hts hrun hv
    simp [hkind] at this
  have hn : ¬ b.Retakes ts n := fun hn => hresult _ (.numbered hn.numbers)
  rcases line_mentions h hts hrun hv with ⟨w, hw⟩ | ⟨x, hx⟩
  · -- A name that stood for something else than a placeholder would stand for it still.
    have hwaits : b.module.kind? w = some .placeholder := by
      obtain ⟨kind, hold, -⟩ := (h.values n w hw).own
      by_contra hne
      obtain ⟨s, hstays, hcarries⟩ := line_carries h hts hrun
      have hsame := hcarries n w hw hn
      rw [hstays.module.fixed hold fun heq => hne (heq ▸ hold)] at hsame
      obtain rfl := Option.some.inj (hv.symm.trans hsame)
      exact hne (hold.trans ((hstays.module.keeps.kind? hold).symm.trans hkind))
    obtain ⟨i, k, hx⟩ := hb n w hw hwaits
    exact ⟨i, k, hx.line h hts hrun hn⟩
  · cases x with
    | param k => cases hx
    | operand i k => exact ⟨i, k, hx.holdsAt h hts hrun hn⟩
    | result i => exact absurd hx (hresult i)

/-! ## Names that are lost -/

/-- A placeholder is read, and no name stands for it. -/
def Lost (b : Body) : Prop := ∃ w, b.module.Dangles w ∧ ∀ n : String, b.values[n]? ≠ some w

/-- A result that takes the number of a placeholder loses it. -/
lemma Retakes.lost (hn : b.Retakes ts n) (h : b.Draft) (hb : b.Awaited) (hts : ∀ t ∈ ts, t.Valid)
    (hrun : line ts b = .ok (u, b')) (hwaits : ∀ v, ¬ b.Settled n v) : b'.Lost := by
  rcases line_cases h hts hrun with ⟨hlabel, -⟩ | ⟨name, s, inst, b₁, b₂, hline⟩
  · exact absurd (Mentions.numbered hn.numbers).isInstruction hlabel
  obtain ⟨rfl, hvoid, -⟩ := hline.numbers_iff.1 hn.numbers
  have hkey := hline.enteredAs_iff.2 (.inr hn.numbers)
  -- The placeholder is read, in an earlier line or in this one.
  have hread : ∃ w f i k, b₂.values[n]? = some w ∧ b₂.module.kind? w = some .placeholder ∧
      b'.module.valueAt? f (.operand i k) = some w := by
    by_cases hmet : ∃ w, b.values[n]? = some w
    · obtain ⟨w, hw⟩ := hmet
      obtain ⟨kind, hkind, -⟩ := (h.values n w hw).own
      have hplaceholder : kind = .placeholder := by
        by_contra hne
        exact hwaits w ⟨hw, kind, hkind, hne⟩
      subst hplaceholder
      obtain ⟨i, k, w', hvalue, hw'⟩ := hb n w hw hkind
      obtain rfl := Option.some.inj (hw.symm.trans hw')
      have hlooked := hline.opened.1.module.keeps.kind? hkind
      exact ⟨w, _, i, k, hline.looked hw, hline.lookups.widens.module.keeps.kind? hlooked,
        hline.stays.module.valueAt? h.module h.shaped hvalue⟩
    · obtain ⟨i, k, hx⟩ := hn.met.resolve_left hmet
      obtain ⟨rfl, ty, hk⟩ := hline.mentions_operand hx
      obtain ⟨w, hw, hvalue⟩ := hline.operand hk
      rcases hline.lookups.origin hw with hold | ⟨-, hkind⟩
      · exact absurd ⟨w, hline.opened.2.1 ▸ hold⟩ hmet
      · exact ⟨w, _, _, k, hw, hkind, hvalue⟩
  obtain ⟨w, f, i, k, hw, hkind, hvalue⟩ := hread
  have hkind' := hline.enters.stays.module.keeps.kind? hkind
  refine ⟨w, dangles_of_valueAt? hkind' hvalue, fun n' hn' => ?_⟩
  have hresult := (hline.result (h.line hts hrun)).2
  rw [hline.enters.values] at hn'
  split_ifs at hn' with hkey'
  · obtain rfl := Option.some.inj hn'
    exact absurd (hkind'.symm.trans hresult) (by simp)
  · obtain rfl := (hline.draft h).apart n' n w hn' hw hkind
    exact hkey' hkey

/-- What is lost stays lost. -/
lemma Lost.line (hb : b.Lost) (h : b.Draft) (hts : ∀ t ∈ ts, t.Valid)
    (hrun : line ts b = .ok (u, b')) : b'.Lost := by
  obtain ⟨w, hw, hunnamed⟩ := hb
  rcases line_cases h hts hrun with ⟨-, hstays, hvalues⟩ | ⟨name, s, inst, b₁, b₂, hline⟩
  · exact ⟨w, hw.extends hstays.module rfl, fun n => hvalues ▸ hunnamed n⟩
  have hunnamed₂ : ∀ n : String, b₂.values[n]? ≠ some w := by
    intro n hn
    rcases hline.lookups.origin hn with hold | ⟨hnew, -⟩
    · exact hunnamed n (hline.opened.2.1 ▸ hold)
    · obtain ⟨value, hvalue, -⟩ := kind?_eq_some.1 (hline.opened.1.module.keeps.kind? hw.kind)
      rw [hnew] at hvalue
      cases hvalue
  have hfixed : b₂.sending name inst.result w = w := by
    cases name with
    | none => rfl
    | some own => exact if_neg (hunnamed₂ own)
  have hdangles := hw.extends hline.stays.module hfixed
  refine ⟨w, hdangles, fun n hn => ?_⟩
  rw [hline.enters.values] at hn
  split_ifs at hn
  · obtain rfl := Option.some.inj hn
    exact absurd (hdangles.kind.symm.trans (hline.result (h.line hts hrun)).2) (by simp)
  · exact hunnamed₂ n hn

/-! ## Parameters -/

/-- At the beginning of a body a name stands for a parameter. -/
lemma exists_param_of_start {m : Module} {symbols : Symbols} {d : Definition} (hd : d.Fits m)
    (hrun : Body.start m symbols d.func d.params = .ok b) (hv : b.values[n]? = some v) :
    ∃ k, b.module.valueAt? b.func (.param k) = some v := by
  simp only [Body.start, bind_eq_ok, pure_eq_ok] at hrun
  obtain ⟨⟨u, _⟩, hparams, rfl⟩ := hrun
  obtain ⟨func, hfunc, -⟩ := hd.func
  obtain ⟨k, values, rfl, -, hvalues, -⟩ := nameParams_eq_ok hparams hfunc
  rcases hvalues n v hv with hnone | ⟨j, name, -, hparam, -⟩
  · simp at hnone
  · rw [Nat.zero_add] at hparam
    refine ⟨j, ?_⟩
    rw [valueAt?, hfunc, Option.bind_some]
    exact hparam

end Text.Body

namespace Text

open SsaFold.Module

variable {text : String} {symbols : Symbols} {p p' : Position} {ds ds' : List Definition}
  {l : TokenLine} {after : List TokenLine} {b b' : Body} {n : String} {m : Module}

/-! ## Through a text -/

lemma awaited_of_start {d : Definition} (hm : Sketch m symbols) (hd : d.Fits m)
    (hrun : Body.start m symbols d.func d.params = .ok b) : b.Awaited := by
  obtain ⟨hb, -⟩ := Body.Draft.start hm hd hrun
  intro n v hv hkind
  obtain ⟨k, hparam⟩ := Body.exists_param_of_start hd hrun hv
  have := kind?_of_valueAt? hb.module hb.shaped hparam rfl
  simp [hkind] at this

lemma Reaches.awaited (h : Reaches text symbols (.inside b) ds after) : b.Awaited := by
  refine (h.induction (P := fun p => ∀ b, p = .inside b → b.Awaited) (fun m b hp => nomatch hp)
    fun p ds l p' ds' hsound hl hp hrun => ?_).2.1 b rfl
  rintro b' rfl
  rcases readLine_cases hrun with ⟨m, d, b, rfl, rfl, hstart, heq⟩ | ⟨m, rfl, heq, -⟩ |
    ⟨b, rfl, -, -, heq, -⟩ | ⟨b, b₁, rfl, hline, heq, -⟩
  · obtain rfl := Position.inside.inj heq
    exact awaited_of_start hsound.1 (hsound.2.fits d List.mem_cons_self) hstart
  · cases heq
  · cases heq
  · obtain rfl := Position.inside.inj heq
    exact (hp b rfl).line hsound.1 hl hline

/-- A placeholder is read, and no name stands for it, so that no line gets at it any more. -/
def Position.Lost : Position → Prop
  | outside m => ∃ w, m.Dangles w
  | inside b => b.Lost

lemma readLine_lost (h : p.Sound symbols ds) (hl : l.Valid) (hp : p.Lost)
    (hrun : readLine symbols (p, ds) l = .ok (p', ds')) : p'.Lost := by
  rcases readLine_cases hrun with ⟨m, d, b, rfl, rfl, hstart, rfl⟩ | ⟨m, rfl, rfl, -⟩ |
    ⟨b, rfl, -, -, rfl, -⟩ | ⟨b, b', rfl, hline, rfl, -⟩
  · obtain ⟨w, hw⟩ := hp
    obtain ⟨hm, hpending⟩ := h
    have hd := hpending.fits d List.mem_cons_self
    obtain ⟨hb, rfl, -⟩ := Body.Draft.start hm hd hstart
    refine ⟨w, hw, fun n hn => ?_⟩
    obtain ⟨k, hparam⟩ := Body.exists_param_of_start hd hstart hn
    have := kind?_of_valueAt? hb.module hb.shaped hparam rfl
    simp [hw.kind] at this
  · exact hp
  · obtain ⟨w, hw, -⟩ := hp
    exact ⟨w, hw⟩
  · exact Body.Lost.line hp h.1 hl hline

/-- A text that leads to a lost placeholder is refused. -/
lemma Reaches.ne_ok (h : Reaches text symbols p ds after) (hp : p.Lost) :
    Module.ofText text ≠ .ok m := by
  intro hread
  obtain ⟨hsound, hafter⟩ := h.sound
  obtain ⟨ds', hrest⟩ := h.rest hread
  obtain ⟨-, w, hw⟩ := foldlM_keeps_mem
    (P := fun t : Position × List Definition => t.1.Sound symbols t.2 ∧ t.1.Lost)
    (fun t l hl t' ht hstep => ⟨readLine_sound ht.1 (hafter l hl) hstep,
      readLine_lost ht.1 (hafter l hl) ht.2 hstep⟩) ⟨hsound, hp⟩ hrest
  obtain ⟨i, inst, hi, hmem⟩ := hw.read
  exact (complete_ofText hread).resolved i inst hi w hmem hw.kind

lemma Body.IsInstruction.ne_brace {ts : List Token} (h : Body.IsInstruction ts) :
    ts ≠ [.punct '\x7d'] := by
  rintro rfl
  obtain ⟨x, hx⟩ := h
  cases hx

/-- When a result has a name that has been read before, the places at which it is read get the
result, and keep it.  When a result without a name takes a number that has been read before and is
not defined, they do not, and the text is refused, whatever follows. -/
theorem forward_reads (h : Reaches text symbols (.inside b) ds (l :: after)) :
    (∀ op s b', Body.Parses l.tokens (some n) op s → Body.line l.tokens b = .ok ((), b') →
      ∃ v, ∀ x, x = .result ⟨b.module.insts.size⟩ ∨ b.HoldsAt n x →
        b'.module.valueAt? b.func x = some v ∧
          ∀ m, Module.ofText text = .ok m → m.valueAt? b.func x = some v) ∧
    (b.Retakes l.tokens n → (∀ v, ¬ b.Settled n v) → ∀ m, Module.ofText text ≠ .ok m) := by
  obtain ⟨⟨hb, -⟩, hafter⟩ := h.sound
  have hl : ∀ t ∈ l.tokens, t.Valid := hafter l List.mem_cons_self
  constructor
  · intro op s b' hparses hline
    have hn : ¬ b.Retakes l.tokens n := fun hn => hparses.not_numbers hn.numbers
    have hresult : b.Mentions l.tokens n (.result ⟨b.module.insts.size⟩) := .named hparses
    obtain ⟨v, hvalue, hv⟩ := hresult.holdsAt hb hl hline hn
    have hkind := Body.kind?_of_mentions_result hresult hb hl hline hv
    obtain ⟨s', hstays⟩ := Body.line_stays hb hl hline
    refine ⟨v, fun x hx => ?_⟩
    have hplace : b'.module.valueAt? b.func x = some v := by
      rw [← hstays.func]
      rcases hx with rfl | hx
      · exact hvalue
      · obtain ⟨w, hw, hname⟩ := hx.line hb hl hline hn
        rwa [Option.some.inj (hv.symm.trans hname)]
    refine ⟨hplace, fun m hread => ?_⟩
    obtain ⟨b'', hline', hreach⟩ := h.line hread hparses.isInstruction.ne_brace
    obtain ⟨-, rfl⟩ := Prod.mk.inj (Except.ok.inj (hline.symm.trans hline'))
    exact hreach.valueAt? hread hplace hkind (by simp)
  · intro hn hwaits m hread
    obtain ⟨b', hline, hreach⟩ :=
      h.line hread (Body.Mentions.numbered hn.numbers).isInstruction.ne_brace
    have hlost : b'.Lost := hn.lost hb h.awaited hl hline hwaits
    exact hreach.ne_ok hlost hread

/-- A text in which a sum reads the sum behind it. -/
def lateText : String :=
  "define i32 @f(i32 %x) \x7b\n  %b = add i32 %a, %x\n  %a = add i32 %x, 1\n  ret i32 %b\n\x7d\n"

/-- The lines of its body. -/
def lateLines : List (List Token) :=
  [[.localName "b", .punct '=', .word "add", .word "i32", .localName "a", .punct ',',
     .localName "x"],
   [.localName "a", .punct '=', .word "add", .word "i32", .localName "x", .punct ',', .int 1],
   [.word "ret", .word "i32", .localName "b"]]

lemma exists_bodyOf_lateText :
    ∃ m d b, Module.ofText lateText = .ok m ∧ BodyOf lateText d b lateLines :=
  exists_bodyOf_of_lines
    [.word "i32", .globalName "f", .punct '(', .word "i32", .localName "x", .punct ')',
      .punct '\x7b']
    (by decide +kernel) (by decide +kernel) (by decide)

/-- Where it is read stands the second sum. -/
theorem forward_reads_lateText : ∃ symbols b ds l after x v m,
    Reaches lateText symbols (.inside b) ds (l :: after) ∧ b.HoldsAt "a" x ∧
      Module.ofText lateText = .ok m ∧
      m.valueAt? b.func (.result ⟨b.module.insts.size⟩) = some v ∧
      m.valueAt? b.func x = some v := by
  obtain ⟨m, d, b, hread, hbody⟩ := exists_bodyOf_lateText
  obtain ⟨symbols, m₀, ds, ls, last, after, hreach, -, -, -, hls, -⟩ := hbody.begins
  obtain ⟨l₁, ls, rfl, hl₁, hls⟩ := List.map_eq_cons_iff.1 hls
  obtain ⟨l₂, ls, rfl, hl₂, -⟩ := List.map_eq_cons_iff.1 hls
  have hparses₁ : Body.Parses lateLines[0] (some "b") _ _ := ⟨_, _, rfl, rfl⟩
  have hparses₂ : Body.Parses lateLines[1] (some "a") _ _ := ⟨_, _, rfl, rfl⟩
  rw [show lateLines[0] = l₁.tokens from hl₁.symm] at hparses₁
  rw [show lateLines[1] = l₂.tokens from hl₂.symm] at hparses₂
  obtain ⟨⟨hb, -⟩, hvalid⟩ := hreach.sound
  obtain ⟨b₁, hfirst, hreach₁⟩ := hreach.line hread hparses₁.isInstruction.ne_brace
  obtain ⟨b₂, hsecond, -⟩ := hreach₁.line hread hparses₂.isInstruction.ne_brace
  -- The first line reads the name, and the second one defines it.
  have hmentions : b.Mentions l₁.tokens "a" (.operand ⟨b.module.insts.size⟩ 0) :=
    .operand hparses₁ rfl
  have hholds := hmentions.holdsAt hb (hvalid l₁ List.mem_cons_self) hfirst fun hn =>
    hparses₁.not_numbers hn.numbers
  obtain ⟨v, hplaces⟩ := (forward_reads hreach₁).1 _ _ b₂ hparses₂ hsecond
  exact ⟨symbols, b₁, ds, l₂, _, _, v, m, hreach₁, hholds, hread, (hplaces _ (.inl rfl)).2 m hread,
    (hplaces _ (.inr hholds)).2 m hread⟩

/-- A loop that counts: the `phi` reads the sum behind it. -/
def countText (result : String) : String :=
  "define void @f() \x7b\n  br label %loop\n" ++
  "loop:\n  %i = phi i32 [ 0, %0 ], [ %1, %loop ]\n  " ++ result ++ "add i32 %i, 1\n" ++
  "  br label %loop\n\x7d\n"

/-- So it matters whether the number of the sum is written out: without it, the text is refused. -/
theorem countText_unnamed : (Module.ofText (countText "%1 = ")).isOk = true ∧
    Module.ofText (countText "") = .error (.error (.malformed (.unresolved none))) := by
  decide +kernel

end Text
end SsaFold
