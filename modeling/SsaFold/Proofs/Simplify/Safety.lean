import SsaFold.Proofs.Reachable

/-!
# The simplifier does not fault

A common erasure refuses an instruction whose result is read.  The simplifier hands it the queue
of a scan, which has grown while the scan went on rewriting.  The theorem below says that the
queue is fit to be erased at every moment: whatever the scan does after an instruction has been
queued, nothing reads its result again.
-/

namespace SsaFold

namespace Module

variable {m m₁ m₂ : Module} {maxBits : Nat}

/-- A scan does one part after the other, and the queues come in this order. -/
lemma scan_append_eq_ok {as bs queue : List InstId}
    (h : m.scan maxBits (as ++ bs) = .ok (m₂, queue)) :
    ∃ m₁ queued queued', m.scan maxBits as = .ok (m₁, queued) ∧
      m₁.scan maxBits bs = .ok (m₂, queued') ∧ queue = queued ++ queued' := by
  induction as generalizing m queue with
  | nil => exact ⟨m, [], queue, rfl, h, rfl⟩
  | cons i rest ih =>
    simp only [List.cons_append, scan, bind_eq_ok, pure_eq_ok, Prod.mk.injEq] at h
    obtain ⟨⟨m₀, folded⟩, hfold, ⟨_, later⟩, hrest, rfl, rfl⟩ := h
    obtain ⟨m₁, queued, queued', hseen, hmore, rfl⟩ := ih hrest
    refine ⟨m₁, if folded then i :: queued else queued, queued', ?_, hmore, ?_⟩
    · simp only [scan, hfold, ok_bind, hseen]
      rfl
    · cases folded <;> rfl

end Module

/-- On a reachable module the simplifier never faults: neither for one function that is there, nor
for all.  In each block, after any part of the scan, the queue holds distinct live instructions of
the block whose results are unread; and it keeps growing at its end only. -/
theorem Reachable.simplifier_safe {m : Module} (h : Reachable m) (maxBits : Nat) :
    (∀ f func, m.func? f = some func → ∃ m' n, m.eliminate f maxBits = .ok (m', n)) ∧
    (∃ m' stats, m.simplify ⟨maxBits, false⟩ = .ok (m', stats)) ∧
    ∀ f func before b after, m.func? f = some func → func.layout.toList = before ++ b :: after →
      ∃ m₀ n block, m.simplifyBlocks maxBits before = .ok (m₀, n) ∧ m₀.block? b = some block ∧
        ∀ seen more unseen, block.insts.toList = seen ++ more ++ unseen →
          ∃ m₁ m₂ queued queued', m₀.scan maxBits seen = .ok (m₁, queued) ∧
            m₁.scan maxBits more = .ok (m₂, queued') ∧
            m₀.scan maxBits (seen ++ more) = .ok (m₂, queued ++ queued') ∧
            (queued ++ queued').Nodup ∧ ∀ i ∈ queued ++ queued', m₂.Erasable b i := by
  refine ⟨fun f func hf => ?_, ?_, fun f func before b after hf hlayout => ?_⟩
  · obtain ⟨m', gone, hrun, -⟩ := h.intact.eliminate_steps maxBits hf []
    exact ⟨m', gone.length, hrun⟩
  · obtain ⟨m', gone, hrun, -⟩ := h.intact.simplify_steps maxBits
    exact ⟨m', _, hrun⟩
  · have hplaced : ∀ c ∈ before ++ b :: after, c ∈ m.placedBlocks := fun c hc =>
      Module.mem_placedBlocks.2 ⟨f, func, hf, Array.mem_toList_iff.1 (hlayout ▸ hc)⟩
    have hs := Sweep.sound_start maxBits h.intact []
    obtain ⟨m₀, gone, hrun, hsteps⟩ := h.intact.simplifyBlocks_steps maxBits
      (fun c hc => hplaced c (List.mem_append_left _ hc)) []
    have h₀ := (hsteps.sound hs).intact
    have hb : b ∈ m₀.placedBlocks := by
      rw [hsteps.placedBlocks hs]
      exact hplaced b (List.mem_append_right _ List.mem_cons_self)
    obtain ⟨block, hblock⟩ := h₀.shaped.exists_block hb
    refine ⟨m₀, gone.length, block, hrun, hblock, fun seen more unseen hinsts => ?_⟩
    obtain ⟨m₂, queue, hscan, hsteps₂, hqueue⟩ := h₀.scan_steps maxBits hb hblock hinsts []
    obtain ⟨m₁, queued, queued', hseen, hmore, rfl⟩ := Module.scan_append_eq_ok hscan
    exact ⟨m₁, m₂, queued, queued', hseen, hmore, hscan,
      (hsteps₂.sound (Sweep.sound_start maxBits h₀ [])).waitingOnce, hqueue⟩

/-- The scan of the knot passes over `a` and queues `b`, whose result is unread then and at the end,
when `c` has come to read itself. -/
theorem simplifier_safe_knot : ∃ m, Op.runAll (.empty "knot") knot = .ok m ∧
    (∃ m' n, m.eliminate ⟨0⟩ 32 = .ok (m', n)) ∧
    (∃ m' stats, m.simplify ⟨32, false⟩ = .ok (m', stats)) ∧
    ∃ m₁ m₂, m.scan 32 [⟨0⟩, ⟨1⟩] = .ok (m₁, [⟨1⟩]) ∧ m₁.Erasable ⟨0⟩ ⟨1⟩ ∧
      m.scan 32 [⟨0⟩, ⟨1⟩, ⟨2⟩, ⟨3⟩] = .ok (m₂, [⟨1⟩]) ∧ m₂.Erasable ⟨0⟩ ⟨1⟩ := by
  obtain ⟨m, func, hrun, hf, hlayout⟩ := knot_runs
  obtain ⟨hone, hall, hscans⟩ :=
    Reachable.simplifier_safe ((Reachable.empty "knot").runAll hrun) 32
  have hruns : (Op.runAll (.empty "knot") knot).toOption.map (fun m =>
      ((m.block? ⟨0⟩).map fun b => b.insts.toList,
        (m.scan 32 [⟨0⟩, ⟨1⟩]).toOption.map Prod.snd,
        (m.scan 32 [⟨0⟩, ⟨1⟩, ⟨2⟩, ⟨3⟩]).toOption.map Prod.snd))
      = some (some [⟨0⟩, ⟨1⟩, ⟨2⟩, ⟨3⟩], some [⟨1⟩], some [⟨1⟩]) := by decide +kernel
  obtain ⟨_, hrun', heq⟩ := toOption_map_eq_some.1 hruns
  obtain rfl := Except.ok.inj (hrun.symm.trans hrun')
  simp only [Prod.mk.injEq, toOption_map_eq_some] at heq
  obtain ⟨hinsts, ⟨⟨m₁, _⟩, hscan₁, rfl⟩, ⟨m₂, _⟩, hscan₂, rfl⟩ := heq
  obtain ⟨m₀, n, block, hblocks, hblock, hscan⟩ := hscans ⟨0⟩ func [] ⟨0⟩ [] hf hlayout
  obtain ⟨rfl, -⟩ := Prod.mk.inj (Except.ok.inj hblocks)
  rw [hblock, Option.map_some, Option.some.injEq] at hinsts
  -- The queue is fit to be erased behind `b`, and at the end of the scan.
  have hqueue : ∀ more unseen m', block.insts.toList = more ++ unseen →
      m.scan 32 more = .ok (m', [⟨1⟩]) → m'.Erasable ⟨0⟩ ⟨1⟩ := by
    intro more unseen m' hsplit hmore
    obtain ⟨_, _, queued, queued', -, -, hmore', -, herasable⟩ := hscan [] more unseen hsplit
    obtain ⟨rfl, heq⟩ := Prod.mk.inj (Except.ok.inj (hmore'.symm.trans hmore))
    exact herasable ⟨1⟩ (heq ▸ List.mem_singleton_self _)
  exact ⟨m, hrun, hone ⟨0⟩ func hf, hall, m₁, m₂, hscan₁, hqueue _ [⟨2⟩, ⟨3⟩] m₁ hinsts hscan₁,
    hscan₂, hqueue _ [] m₂ hinsts hscan₂⟩

end SsaFold
