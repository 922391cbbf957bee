/-
# The gate an embedder reads

`*ev_wake_pending_addr` is `pipeWriteSkipped`. From the moment a pass is past
its test of `asyncPending` to the next pass nobody in the loop looks at a raised
flag (`Pc.quiet`), and what an embedder goes by is `pipeWriteSkipped` alone.
Two accesses there leave it 0 over a wake: the store of a sender that read
`pipeWriteWanted` before the pass ended (`lateClear`), and the return of a
sender that found the flag raised by one that has not stored
`pipeWriteSkipped` yet (`earlyReturn`). Without them the gate holds.
-/
import Qev.Wake.Delivery

namespace Qev
namespace Wake

variable {T A G V : Type} [DecidableEq T] [DecidableEq A] [DecidableEq G] [DecidableEq V]

/-- Between two passes, a send that has returned and is not delivered has the gate open. -/
def WakeGate (S : Setup A G V) (s : State T A G V) : Prop :=
  s.pc = .idle → ∀ m ∈ s.returned, ∀ w, m.src = .async w → Owed S s m (.async w) →
    ¬ Delivered s m (.async w) → s.pipeWriteSkipped

/-- The pass is past its test of `asyncPending`, or there is none. -/
def Pc.quiet (pipeW : Bool) : Pc A G → Bool
  | .idle | .prep _ | .cbScanAsync _ | .cbTakeAsync _ _ => true
  | .invoke => !pipeW
  | _ => false

/-- A sender that read `pipeWriteWanted` clears `pipeWriteSkipped` over a raised `asyncPending`. -/
def lateClear (s : State T A G V) : Act T A G V → Bool
  | .send t =>
    match s.sender t with
    | .busy .clearSkipped _ => s.flag .asyncPending && s.pipeWriteSkipped
    | _ => false
  | _ => false

/-- `ev_async_send` returns at a raised `asyncPending` for which no skip is stored. -/
def earlyReturn (s : State T A G V) : Act T A G V → Bool
  | .send t =>
    match s.sender t with
    | .busy .testFlag m => m.src.flag = .asyncPending && s.flag .asyncPending && !s.pipeWriteSkipped
    | _ => false
  | _ => false

/-- A step of the machine, with neither of the two while the loop is quiet. -/
def gatedStep (S : Setup A G V) (s : State T A G V) (a : Act T A G V) : Option (State T A G V) :=
  if s.pc.quiet s.pipeW.isSome && (lateClear s a || earlyReturn s a) then none else step S s a

/-- The call is past its store of `pipeWriteSkipped`, or found the flag raised. -/
def Skipping (s : State T A G V) (m : Send A G V) : Prop :=
  m ∈ s.returned ∨ ∃ t st, s.sender t = .busy st m ∧
    st ∈ [Stage.testWanted, Stage.clearSkipped, Stage.write]

/-- Neither delivered, nor pending, nor ahead in the scan. -/
def Stranded (s : State T A G V) (m : Send A G V) (h : Handler A V) : Prop :=
  ¬ Delivered s m h ∧ h ∉ s.pend ∧ ¬ s.pc.ahead m.src

/-- While the loop is quiet, only `pipeWriteSkipped` tells of a wake. -/
def Gated (S : Setup A G V) (s : State T A G V) : Prop :=
  s.pc.quiet s.pipeW.isSome → ∀ m, Skipping s m → ∀ w, m.src = .async w → Owed S s m (.async w) →
    Stranded s m (.async w) → s.pipeWriteSkipped

variable {S : Setup A G V} {s s' : State T A G V} {a : Act T A G V} {m : Send A G V} {h : Handler A V}

section

omit [DecidableEq T] [DecidableEq A] [DecidableEq G] [DecidableEq V]

theorem Skipping.raised (hm : Skipping s m) : Raised s m := by
  rcases hm with hm | ⟨t, st, ht, hst⟩
  · exact .inl hm
  · exact .inr ⟨t, st, ht, by grind⟩

theorem Stranded.flag (hs : Stranded s m h) (hw : Waiting s m h) : s.mark m.src ∧ s.flag m.src.flag := by
  obtain ⟨hdel, hpend, hahead⟩ := hs
  rcases hw with hw | hw | ⟨hm, hf | ha⟩
  · exact absurd hw hdel
  · exact absurd hw hpend
  · exact ⟨hm, hf⟩
  · exact absurd ha hahead

end

theorem step_of_gatedStep (hs : gatedStep S s a = some s') :
    step S s a = some s' ∧ (s.pc.quiet s.pipeW.isSome → ¬ lateClear s a ∧ ¬ earlyReturn s a) := by
  unfold gatedStep at hs
  split at hs
  · cases hs
  · exact ⟨hs, by grind⟩

theorem skipping_of_step (hs : step S s a = some s') (hm : Skipping s' m) :
    Skipping s m ∨ ∃ t, a = .send t ∧
      (s.sender t = .busy .testFlag m ∧ s.flag m.src.flag ∨ s'.pipeWriteSkipped) := by
  cases a with
  | begin t x =>
    rcases hm with hm | ⟨t', st', ht', hst'⟩
    · obtain ⟨-, rfl⟩ := step_begin hs
      exact .inl (.inl hm)
    · rcases begin_busy hs ht' with hold | rfl
      · exact .inl (.inr ⟨t', st', hold, hst'⟩)
      · simp at hst'
  | send t =>
    obtain ⟨st, m', ht, rfl⟩ := step_send hs
    rcases hm with hm | ⟨t', st', ht', hst'⟩
    · rcases sendStep_returned hm with hm | ⟨rfl, ⟨rfl, hflag⟩ | rfl | rfl⟩
      · exact .inl (.inl hm)
      · exact .inr ⟨t, rfl, .inl ⟨ht, hflag⟩⟩
      · exact .inl (.inr ⟨t, _, ht, by simp⟩)
      · exact .inl (.inr ⟨t, _, ht, by simp⟩)
    · rcases sendStep_busy ht' with hold | ⟨hnext, rfl⟩
      · exact .inl (.inr ⟨t', st', hold, hst'⟩)
      · cases st with
        | setSkipped => exact .inr ⟨t, rfl, .inr rfl⟩
        | testWanted | clearSkipped => exact .inl (.inr ⟨t, _, ht, by simp⟩)
        | _ => simp_all [Stage.next]
  | _ =>
    obtain ⟨hsender, hreturned⟩ := calls_frame hs (by simp) (by simp)
    unfold Skipping at hm
    rw [hsender, hreturned] at hm
    exact .inl hm

section

omit [DecidableEq V]

/-- A sender that leaves `pipeWriteSkipped` 0 found it 0, or clears it. -/
theorem skipped_sendStep {t : T} {st : Stage} {m : Send A G V} (hs : s.pipeWriteSkipped)
    (hst : st ≠ .clearSkipped) : (sendStep s t m st).pipeWriteSkipped := by
  cases st with
  | clearSkipped => exact absurd rfl hst
  | setSkipped => rfl
  | testFlag | testWanted =>
    simp only [sendStep]
    split <;> exact hs
  | _ => exact hs

end

theorem gated_send {t : T} (hg : Gated S s) (hguard : s.pc.quiet s.pipeW.isSome →
    ¬ lateClear s (.send t) ∧ ¬ earlyReturn s (.send t)) (hs : step S s (.send t) = some s')
    (hI : Inv S s) : Gated S s' := by
  intro hquiet m hm w hsrc ho hstr
  have hflag := hstr.flag ((inv_step hI hs).sends.waiting m hm.raised _ ho)
  have hskipping := skipping_of_step hs hm
  have howed : Skipping s m → Owed S s m (.async w) := fun hm =>
    owed_of_step (hI.sends.past m (.inr hm.raised)) hs ho
  obtain ⟨st, m', ht, rfl⟩ := step_send hs
  obtain ⟨hpc, -, hpipe, hpend, hcalls, -⟩ := sendStep_frame s t m' st
  rw [hpc, hpipe] at hquiet
  obtain ⟨hlate, hearly⟩ := hguard hquiet
  unfold Stranded Delivered at hstr
  rw [hpc, hpend, hcalls] at hstr
  rcases hskipping with hm | ⟨t', heq, ⟨ht', hfl⟩ | hsk⟩
  · have hsk : s.pipeWriteSkipped := hg hquiet m hm w hsrc (howed hm) hstr
    refine skipped_sendStep hsk fun hst => ?_
    subst hst
    -- the store of a sender that is late: `asyncPending` is raised for `m`
    have hraised : s.flag .asyncPending := by
      have hfl := hflag.2
      rw [hsrc] at hfl
      exact hfl
    simp [lateClear, ht, hraised, hsk] at hlate
  · obtain rfl : t = t' := by simpa using heq
    rw [ht] at ht'
    obtain ⟨rfl, rfl⟩ : st = .testFlag ∧ m' = m := by simpa using ht'
    refine skipped_sendStep ?_ (by simp)
    simp only [hsrc, Source.flag] at hfl
    simpa [earlyReturn, ht, hsrc, Source.flag, hfl] using hearly
  · exact hsk

theorem gated_step (hI : Inv S s) (hg : Gated S s) (hs : gatedStep S s a = some s') : Gated S s' := by
  have ⟨hs, hguard⟩ := step_of_gatedStep hs
  by_cases hsend : ∃ t, a = .send t
  · obtain ⟨t, rfl⟩ := hsend
    exact gated_send hg hguard hs hI
  intro hquiet m hm w hsrc ho hstr
  have hm : Skipping s m := by
    rcases skipping_of_step hs hm with hm | ⟨t, rfl, -⟩
    · exact hm
    · exact absurd ⟨t, rfl⟩ hsend
  have hpast := hI.sends.past m (.inr hm.raised)
  obtain ⟨hmark, hflag⟩ := hstr.flag (waiting_step hpast hs ho
    (hI.sends.waiting m hm.raised _ (owed_of_step hpast hs ho)))
  have hgate : s.pc.quiet s.pipeW.isSome → Stranded s m (.async w) → s.pipeWriteSkipped :=
    fun hq hst => hg hq m hm w hsrc (owed_of_step hpast hs ho) hst
  obtain ⟨hdel, hpend, hahead⟩ := hstr
  have hstr : ¬ s.pc.ahead m.src → Stranded s m (.async w) := by
    refine fun ha => ⟨fun hd => hdel (delivered_step hs hd), fun hp => ?_, ha⟩
    rcases pend_step hpast hs ho.2.2 hp with hd | hp
    · exact hdel hd
    · exact hpend hp
  rw [hsrc] at hmark hflag hahead hstr
  cases a with
  | begin t x =>
    obtain ⟨-, rfl⟩ := step_begin hs
    exact hgate hquiet (hstr hahead)
  | send t => exact absurd ⟨t, rfl⟩ hsend
  | go b =>
    simp only [step, goStep, State.goto, State.feedPipe, State.feedAll] at hs
    split at hs <;> rename_i hpc <;> rw [hpc] at hgate hstr <;> (try split at hs) <;>
      (try split at hs) <;> cases hs <;>
      simp_all [Pc.quiet, Pc.ahead, Source.flag, targets, Function.update_apply]
    -- the scan goes past a watcher whose `sent` is 0
    rename_i w' rest hskip
    have hne : w ≠ w' := by
      rintro rfl
      simp [hskip] at hmark
    exact hgate ⟨hdel, hpend, by simp [hsrc, hpc, Pc.ahead, hne, hahead]⟩
  | _ =>
    simp only [step, State.goto, State.renew] at hs
    (repeat' split at hs) <;> cases hs <;> simp_all [Pc.quiet, Pc.ahead]

/-- Between two passes the gate is open over every wake that was sent and not delivered, in a run
without the two accesses. -/
theorem wake_gate {asyncs : List A} {l : List (Act T A G V)}
    (hr : Lib.Run (fun s a t => gatedStep S s a = some t) (initial asyncs) l s) : WakeGate S s := by
  have hinv : Inv S s ∧ Gated S s :=
    Lib.Run.invariant (I := fun s => Inv S s ∧ Gated S s)
      (fun _ _ _ ⟨hI, hg⟩ hs => ⟨inv_step hI (step_of_gatedStep hs).1, gated_step hI hg hs⟩) hr
      ⟨inv_initial asyncs, fun _ m hm => by simp [Skipping, initial] at hm⟩
  obtain ⟨hI, hg⟩ := hinv
  intro hpc m hm w hsrc ho hdel
  refine hg (by simp [hpc, Pc.quiet]) m (.inl hm) w hsrc ho ⟨hdel, ?_, by simp [hpc, Pc.ahead]⟩
  have hpend : s.pend = [] := by
    by_contra hne
    simpa [hpc, Pc.delivers] using hI.control.pend hne
  simp [hpend]

/-- A wake through the pipe is delivered, and the next one, which skips it, opens the gate. -/
theorem wake_gate_pass :
    ∃ s : State Bool Unit Unit Unit,
      Lib.Run (fun s a t => gatedStep oneEach s a = some t) (initial [()])
        (sleep ++ asyncSend true ++ [.send true, .send true, .go true] ++ loopSteps 4 ++ [.pipecb] ++
          loopSteps 8 ++ [.call (.async ()), .done] ++ asyncSend false) s ∧
      s.returned.length = 2 ∧ WakeGate oneEach s := by
  have hr : ∃ s, Lib.Run (fun s a t => gatedStep oneEach s a = some t) (initial [()])
      (sleep ++ asyncSend true ++ [.send true, .send true, .go true] ++ loopSteps 4 ++ [.pipecb] ++
        loopSteps 8 ++ [.call (.async ()), .done] ++ asyncSend false) s ∧ s.returned.length = 2 :=
    ⟨_, Lib.Run.iff_execFrom.mpr rfl, rfl⟩
  obtain ⟨s, hr, hlen⟩ := hr
  exact ⟨s, hr, hlen, wake_gate hr⟩

/-- `true` reads `pipeWriteWanted` in a blocking pass, whose tail delivers its wake; `false` sends
after the pass; then `true` stores `pipeWriteSkipped` = 0 and writes the pipe. -/
theorem wake_gate_late_clear :
    ∃ s : State Bool Unit Unit Unit,
      Reach oneEach [()] (sleep ++ asyncSend true ++ loopSteps 3 ++ [.pipecb] ++ loopSteps 7 ++
        [.call (.async ()), .done] ++ asyncSend false ++ [.send true, .send true]) s ∧
      (∀ t, s.sender t = .idle) ∧ ¬ WakeGate oneEach s := by
  refine ⟨_, Lib.Run.iff_execFrom.mpr rfl, fun t => by cases t <;> rfl, fun h => ?_⟩
  exact absurd (h rfl _ (.tail _ (.head _)) () rfl (by decide) (by decide)) (by decide)

/-- `false` finds `asyncPending` raised by `true`, which has not stored `pipeWriteSkipped` yet. -/
theorem wake_gate_early_return :
    ∃ s : State Bool Unit Unit Unit,
      Reach oneEach [()] [.begin true (.async ()), .send true, .send true, .send true,
        .begin false (.async ()), .send false, .send false] s ∧ ¬ WakeGate oneEach s := by
  refine ⟨_, Lib.Run.iff_execFrom.mpr rfl, fun h => ?_⟩
  exact absurd (h rfl _ (.head _) () rfl (by decide) (by decide)) (by decide)

end Wake
end Qev
