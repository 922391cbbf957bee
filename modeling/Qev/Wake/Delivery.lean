/-
# No wake is lost

What a send has left behind, from its stores to the callback: an event is owed
to a watcher that is still active and that nobody stopped, started or cleared
since the mark was stored (`Owed`). Until the callback has run it is pending, or
its mark is set with the flag raised or the scan of `pipecb` still to come
(`Waiting`). From the tail test of a pass on, the flag is one the pass looks at
(`Due`), so that the pass cannot end before the callback.
-/
import Qev.Wake.Invariant

namespace Qev
namespace Wake

variable {T A G V : Type} [DecidableEq T] [DecidableEq A] [DecidableEq G] [DecidableEq V]

/-! ### What is owed to a watcher -/

/-- `h` has been active since the mark of `m` was stored, and nothing took the event back. -/
def Owed (S : Setup A G V) (s : State T A G V) (m : Send A G V) (h : Handler A V) : Prop :=
  h ∈ targets S m.src ∧ Live S s m.src ∧ s.epoch h = m.epoch h

instance (S : Setup A G V) (s : State T A G V) (m : Send A G V) (h : Handler A V) : Decidable (Owed S s m h) :=
  inferInstanceAs (Decidable (_ ∧ _ ∧ _))

/-- The callback of `h` has run since the mark of `m` was stored. -/
def Delivered (s : State T A G V) (m : Send A G V) (h : Handler A V) : Prop :=
  m.calls h < s.calls h

instance (s : State T A G V) (m : Send A G V) (h : Handler A V) : Decidable (Delivered s m h) :=
  inferInstanceAs (Decidable (_ < _))

def Waiting (s : State T A G V) (m : Send A G V) (h : Handler A V) : Prop :=
  Delivered s m h ∨ h ∈ s.pend ∨ s.mark m.src ∧ (s.flag m.src.flag ∨ s.pc.ahead m.src)

/-- The mark is stored, the flag perhaps not raised yet. -/
def Posted (s : State T A G V) (m : Send A G V) (h : Handler A V) : Prop :=
  Delivered s m h ∨ h ∈ s.pend ∨ s.mark m.src

/-- The history a send carries is not ahead of the loop's. -/
def Past (s : State T A G V) (m : Send A G V) : Prop :=
  ∀ h, m.calls h ≤ s.calls h ∧ m.epoch h ≤ s.epoch h

variable {S : Setup A G V} {s s' : State T A G V} {a : Act T A G V} {m : Send A G V} {h : Handler A V}

/-- The history only grows. -/
theorem history_step (hs : step S s a = some s') (h : Handler A V) :
    s.calls h ≤ s'.calls h ∧ s.epoch h ≤ s'.epoch h := by
  cases a with
  | begin t x =>
    obtain ⟨-, rfl⟩ := step_begin hs
    exact ⟨Nat.le_refl _, Nat.le_refl _⟩
  | send t =>
    obtain ⟨st, m, -, rfl⟩ := step_send hs
    obtain ⟨-, -, -, -, hcalls, hepoch, -⟩ := sendStep_frame s t m st
    rw [hcalls, hepoch]
    exact ⟨Nat.le_refl _, Nat.le_refl _⟩
  | go b =>
    obtain ⟨-, -, hcalls, hepoch, -⟩ := go_frame hs
    rw [hcalls, hepoch]
    exact ⟨Nat.le_refl _, Nat.le_refl _⟩
  | call h' =>
    simp only [step] at hs
    split at hs <;> cases hs
    refine ⟨?_, Nat.le_refl _⟩
    by_cases hh : h = h'
    · subst hh
      simp
    · simp [hh]
  | evAsyncStart w | evAsyncStop w | evClearPending h' =>
    simp only [step, State.renew] at hs
    split at hs <;> cases hs
    refine ⟨Nat.le_refl _, ?_⟩
    simp only [Function.update_apply]
    split
    · simp_all
    · exact Nat.le_refl _
  | _ =>
    simp only [step, State.goto] at hs
    (repeat' split at hs) <;> cases hs <;> exact ⟨Nat.le_refl _, Nat.le_refl _⟩

theorem past_step (hp : Past s m) (hs : step S s a = some s') : Past s' m := fun h =>
  ⟨(hp h).1.trans (history_step hs h).1, (hp h).2.trans (history_step hs h).2⟩

/-- A watcher that becomes active or inactive has its epoch moved on. -/
theorem asyncs_step (hs : step S s a = some s') {w : A} (hw : w ∈ s'.asyncs)
    (he : s'.epoch (.async w) ≤ s.epoch (.async w)) : w ∈ s.asyncs := by
  cases a with
  | begin t x =>
    obtain ⟨-, rfl⟩ := step_begin hs
    exact hw
  | send t =>
    obtain ⟨st, m, -, rfl⟩ := step_send hs
    rwa [(sendStep_frame s t m st).2.1] at hw
  | go b => rwa [(go_frame hs).2.1] at hw
  | evAsyncStart w' =>
    simp only [step, State.renew] at hs
    split at hs <;> cases hs
    rcases List.mem_append.mp hw with hw | hw
    · exact hw
    · simp [List.mem_singleton.mp hw] at he
  | _ =>
    simp only [step, State.goto, State.renew] at hs
    (repeat' split at hs) <;> cases hs <;> simp_all

theorem owed_of_step (hp : Past s m) (hs : step S s a = some s') (ho : Owed S s' m h) :
    Owed S s m h := by
  obtain ⟨htarget, hlive, hepoch⟩ := ho
  have he : s.epoch h = m.epoch h := by
    have h₁ := (hp h).2
    have h₂ := (history_step hs h).2
    omega
  refine ⟨htarget, ?_, he⟩
  cases hsrc : m.src with
  | async w =>
    simp only [hsrc, targets, List.mem_singleton] at htarget
    subst htarget
    rw [hsrc] at hlive
    exact asyncs_step hs hlive (by omega)
  | signal g =>
    rw [hsrc] at hlive
    exact hlive

theorem delivered_step (hs : step S s a = some s') (hd : Delivered s m h) : Delivered s' m h :=
  Nat.lt_of_lt_of_le hd (history_step hs h).1

/-- A pending watcher is called, unless its event is taken back. -/
theorem pend_step (hp : Past s m) (hs : step S s a = some s') (he : s'.epoch h = m.epoch h)
    (hw : h ∈ s.pend) : Delivered s' m h ∨ h ∈ s'.pend := by
  obtain ⟨hcalls, hepoch⟩ := hp h
  unfold Delivered
  cases a with
  | begin t x =>
    obtain ⟨-, rfl⟩ := step_begin hs
    exact .inr hw
  | send t =>
    obtain ⟨st, m', -, rfl⟩ := step_send hs
    rw [(sendStep_frame s t m' st).2.2.2.1]
    exact .inr hw
  | go b =>
    simp only [step, goStep, State.goto, State.feedPipe, State.feedAll] at hs
    split at hs <;> (try split at hs) <;> (try split at hs) <;> cases hs <;>
      simp only [mem_foldl_feed, hw, true_or, or_true]
  | call h' =>
    simp only [step] at hs
    split at hs <;> cases hs
    by_cases hh : h = h'
    · subst hh
      exact .inl (by simpa using Nat.lt_succ_of_le hcalls)
    · exact .inr (by simp [hw, hh])
  | evAsyncStart w | evAsyncStop w | evClearPending h' =>
    simp only [step, State.renew] at hs
    split at hs <;> cases hs
    refine .inr (List.mem_filter.mpr ⟨hw, decide_eq_true fun hh => ?_⟩)
    subst hh
    simp only [Function.update_self] at he
    omega
  | pass k | brk | pipecb =>
    simp only [step, State.goto] at hs
    (repeat' split at hs) <;> cases hs <;> exact .inr hw
  | done =>
    simp only [step, State.goto] at hs
    split at hs <;> cases hs
    exact .inr hw

/-- A mark is cleared when the scan feeds its watchers, or at the start of the watcher. -/
theorem mark_step (hp : Past s m) (hs : step S s a = some s') (ht : h ∈ targets S m.src)
    (he : s'.epoch h = m.epoch h) (hm : s.mark m.src) : h ∈ s'.pend ∨ s'.mark m.src := by
  have hepoch := (hp h).2
  cases a with
  | begin t x =>
    obtain ⟨-, rfl⟩ := step_begin hs
    exact .inr hm
  | send t =>
    obtain ⟨st, m', -, rfl⟩ := step_send hs
    exact .inr ((sendStep_raises s t m' st).1 _ hm)
  | go b =>
    simp only [step, goStep, State.goto, State.feedPipe, State.feedAll] at hs
    split at hs <;> (try split at hs) <;> (try split at hs) <;> cases hs <;> (try exact .inr hm) <;>
      rename_i x rest _ <;> simp only [mem_foldl_feed, Function.update_apply]
    · by_cases hx : m.src = .signal x
      · exact .inl (.inr (hx ▸ ht))
      · exact .inr (by rwa [if_neg hx])
    · by_cases hx : m.src = .async x
      · exact .inl (.inr (hx ▸ ht))
      · exact .inr (by rwa [if_neg hx])
  | evAsyncStart w =>
    simp only [step, State.renew] at hs
    split at hs <;> cases hs
    by_cases hx : m.src = .async w
    · rw [hx, targets, List.mem_singleton] at ht
      subst ht
      simp only [Function.update_self] at he
      omega
    · exact .inr (by simpa [Function.update_apply, hx] using hm)
  | _ =>
    simp only [step, State.goto, State.renew] at hs
    (repeat' split at hs) <;> cases hs <;> exact .inr hm

/-- While a mark is set, its flag stays raised until the scan has it ahead. -/
theorem flag_step {x : Source A G} (hs : step S s a = some s') (hl : Live S s x) (hm : s.mark x)
    (hm' : s'.mark x) (hf : s.flag x.flag ∨ s.pc.ahead x) : s'.flag x.flag ∨ s'.pc.ahead x := by
  cases a with
  | begin t x =>
    obtain ⟨-, rfl⟩ := step_begin hs
    exact hf
  | send t =>
    obtain ⟨st, m', -, rfl⟩ := step_send hs
    rw [(sendStep_frame s t m' st).1]
    exact hf.imp_left ((sendStep_raises s t m' st).2 _)
  | go b =>
    have hcovers := S.covers
    simp only [step, goStep, State.goto, State.feedPipe, State.feedAll] at hs
    cases x <;> simp only [Live, Source.flag] at * <;> split at hs <;> rename_i hpc <;>
      rw [hpc] at hf <;> (try split at hs) <;> (try split at hs) <;> cases hs <;>
      simp_all [Pc.ahead, Function.update_apply]
    -- the scan goes past a source whose mark is clear
    · rename_i hskip
      rcases hf with hf | rfl | hf
      · exact .inl hf
      · simp [hskip] at hm
      · exact .inr hf
    · rename_i hskip
      rcases hf with hf | rfl | hf
      · exact .inl hf
      · exact absurd (hskip hm) hl
      · exact .inr hf
  | _ =>
    simp only [step, State.goto, State.renew] at hs
    (repeat' split at hs) <;> cases hs <;> simp_all [Pc.ahead]

theorem posted_step (hp : Past s m) (hs : step S s a = some s') (ho : Owed S s' m h)
    (hw : Posted s m h) : Posted s' m h := by
  rcases hw with hd | hpend | hmark
  · exact .inl (delivered_step hs hd)
  · exact (pend_step hp hs ho.2.2 hpend).imp_right .inl
  · exact .inr (mark_step hp hs ho.1 ho.2.2 hmark)

theorem waiting_step (hp : Past s m) (hs : step S s a = some s') (ho : Owed S s' m h)
    (hw : Waiting s m h) : Waiting s' m h := by
  rcases hw with hd | hpend | ⟨hmark, hflag⟩
  · exact .inl (delivered_step hs hd)
  · exact (pend_step hp hs ho.2.2 hpend).imp_right .inl
  · rcases mark_step hp hs ho.1 ho.2.2 hmark with hpend | hmark'
    · exact .inr (.inl hpend)
    · exact .inr (.inr ⟨hmark', flag_step hs (owed_of_step hp hs ho).2.1 hmark hmark' hflag⟩)

/-! ### The sends of a run -/

/-- The call is between its mark and its flag. -/
def Posting (s : State T A G V) (m : Send A G V) : Prop :=
  ∃ t st, s.sender t = .busy st m ∧ st ∈ [Stage.testFlag, Stage.setFlag]

/-- The call has raised its flag, or found it raised. -/
def Raised (s : State T A G V) (m : Send A G V) : Prop :=
  m ∈ s.returned ∨ ∃ t st, s.sender t = .busy st m ∧
    st ∈ [Stage.setSkipped, Stage.testWanted, Stage.clearSkipped, Stage.write]

structure Sends (S : Setup A G V) (s : State T A G V) : Prop where
  past : ∀ m, Posting s m ∨ Raised s m → Past s m
  posted : ∀ m, Posting s m → ∀ h, Owed S s m h → Posted s m h
  waiting : ∀ m, Raised s m → ∀ h, Owed S s m h → Waiting s m h

theorem begin_busy {t t' : T} {x : Source A G} {st' : Stage} {m' : Send A G V}
    (hs : step S s (.begin t x) = some s') (h : s'.sender t' = .busy st' m') :
    s.sender t' = .busy st' m' ∨ st' = .mark := by
  obtain ⟨-, rfl⟩ := step_begin hs
  by_cases ht : t' = t
  · subst ht
    simp only [State.sendAt, Function.update_self, Sender.busy.injEq] at h
    exact .inr h.1.symm
  · simp only [State.sendAt, Function.update_of_ne ht] at h
    exact .inl h

/-- The stages that follow one another in a call that does not return. -/
def Stage.next : Stage → List Stage
  | .mark => [.testFlag]
  | .testFlag => [.setFlag]
  | .setFlag => [.setSkipped]
  | .setSkipped => [.testWanted]
  | .testWanted => [.clearSkipped]
  | .clearSkipped => [.write]
  | .write => []

section

omit [DecidableEq V]

theorem sendStep_busy {t t' : T} {st st' : Stage} {m m' : Send A G V}
    (h : (sendStep s t m st).sender t' = .busy st' m') :
    s.sender t' = .busy st' m' ∨
      st' ∈ st.next ∧ m' = if st = .mark then ⟨m.src, s.calls, s.epoch⟩ else m := by
  by_cases ht : t' = t
  · subst ht
    right
    cases st <;> simp only [sendStep] at h <;> (try split at h) <;>
      simp_all [State.sendAt, State.sendRet, Stage.next]
  · left
    cases st <;> simp only [sendStep] at h <;> (try split at h) <;>
      simpa [State.sendAt, State.sendRet, Function.update_of_ne ht] using h

theorem sendStep_returned {t : T} {st : Stage} {m m' : Send A G V} (h : m' ∈ (sendStep s t m st).returned) :
    m' ∈ s.returned ∨ m' = m ∧ (st = .testFlag ∧ s.flag m.src.flag ∨ st = .testWanted ∨ st = .write) := by
  cases st <;> simp only [sendStep] at h <;> (try split at h) <;>
    simp_all [State.sendAt, State.sendRet] <;> exact h.symm

end

/-- Only a call's own accesses move it, or return from it. -/
theorem calls_frame (hs : step S s a = some s') (hbegin : ∀ t x, a ≠ .begin t x) (hsend : ∀ t, a ≠ .send t) :
    s'.sender = s.sender ∧ s'.returned = s.returned := by
  cases a with
  | begin t x => exact absurd rfl (hbegin t x)
  | send t => exact absurd rfl (hsend t)
  | go b =>
    obtain ⟨hsender, -, -, -, -, hreturned⟩ := go_frame hs
    exact ⟨hsender, hreturned⟩
  | _ =>
    simp only [step, State.goto, State.renew] at hs
    (repeat' split at hs) <;> cases hs <;> exact ⟨rfl, rfl⟩

/-- A call that has stored its mark by a step had stored it before, or stores it there. -/
theorem posting_of_step (hs : step S s a = some s') (h : Posting s' m) :
    Posting s m ∨ m.calls = s.calls ∧ m.epoch = s.epoch ∧ s'.mark m.src := by
  obtain ⟨t', st', ht', hst'⟩ := h
  cases a with
  | begin t x =>
    rcases begin_busy hs ht' with hold | rfl
    · exact .inl ⟨t', st', hold, hst'⟩
    · simp at hst'
  | send t =>
    obtain ⟨st, m', ht, rfl⟩ := step_send hs
    rcases sendStep_busy ht' with hold | ⟨hnext, rfl⟩
    · exact .inl ⟨t', st', hold, hst'⟩
    · cases st with
      | mark => exact .inr ⟨rfl, rfl, by simp [sendStep, State.sendAt]⟩
      | testFlag => exact .inl ⟨t, .testFlag, ht, by simp⟩
      | _ => simp_all [Stage.next]
  | _ =>
    obtain ⟨hsender, -⟩ := calls_frame hs (by simp) (by simp)
    exact .inl ⟨t', st', by rwa [hsender] at ht', hst'⟩

theorem raised_of_step (hs : step S s a = some s') (h : Raised s' m) :
    Raised s m ∨ Posting s m ∧ s'.flag m.src.flag := by
  cases a with
  | begin t x =>
    rcases h with h | ⟨t', st', ht', hst'⟩
    · obtain ⟨-, rfl⟩ := step_begin hs
      exact .inl (.inl h)
    · rcases begin_busy hs ht' with hold | rfl
      · exact .inl (.inr ⟨t', st', hold, hst'⟩)
      · simp at hst'
  | send t =>
    obtain ⟨st, m', ht, rfl⟩ := step_send hs
    rcases h with h | ⟨t', st', ht', hst'⟩
    · rcases sendStep_returned h with h | ⟨rfl, ⟨rfl, hflag⟩ | rfl | rfl⟩
      · exact .inl (.inl h)
      · exact .inr ⟨⟨t, _, ht, by simp⟩, (sendStep_raises s t m _).2 _ hflag⟩
      · exact .inl (.inr ⟨t, _, ht, by simp⟩)
      · exact .inl (.inr ⟨t, _, ht, by simp⟩)
    · rcases sendStep_busy ht' with hold | ⟨hnext, rfl⟩
      · exact .inl (.inr ⟨t', st', hold, hst'⟩)
      · cases st with
        | mark | testFlag | write => simp_all [Stage.next]
        | setFlag => exact .inr ⟨⟨t, _, ht, by simp⟩, by simp [sendStep, State.sendAt]⟩
        | setSkipped | testWanted | clearSkipped => exact .inl (.inr ⟨t, _, ht, by simp⟩)
  | _ =>
    obtain ⟨hsender, hreturned⟩ := calls_frame hs (by simp) (by simp)
    unfold Raised at h
    rw [hsender, hreturned] at h
    exact .inl h

theorem sends_step (hI : Sends S s) (hs : step S s a = some s') : Sends S s' := by
  have hposted : ∀ m, Posting s m ∨ Raised s m → ∀ h, Owed S s m h → Posted s m h := by
    rintro m (hm | hm) h ho
    · exact hI.posted m hm h ho
    · exact (hI.waiting m hm h ho).imp_right (Or.imp_right And.left)
  have hpast : ∀ m, Posting s' m → Past s' m := by
    intro m hm
    rcases posting_of_step hs hm with hm | ⟨hcalls, hepoch, -⟩
    · exact past_step (hI.past m (.inl hm)) hs
    · exact past_step (fun h => ⟨Nat.le_of_eq (congrFun hcalls h), Nat.le_of_eq (congrFun hepoch h)⟩) hs
  refine ⟨?_, ?_, ?_⟩
  · rintro m (hm | hm)
    · exact hpast m hm
    · rcases raised_of_step hs hm with hm | ⟨hm, -⟩
      · exact past_step (hI.past m (.inr hm)) hs
      · exact past_step (hI.past m (.inl hm)) hs
  · intro m hm h ho
    rcases posting_of_step hs hm with hm | ⟨-, -, hmark⟩
    · have hp := hI.past m (.inl hm)
      exact posted_step hp hs ho (hI.posted m hm h (owed_of_step hp hs ho))
    · exact .inr (.inr hmark)
  · intro m hm h ho
    rcases raised_of_step hs hm with hm | ⟨hm, hflag⟩
    · have hp := hI.past m (.inr hm)
      exact waiting_step hp hs ho (hI.waiting m hm h (owed_of_step hp hs ho))
    · have hp := hI.past m (.inl hm)
      have hpost := posted_step hp hs ho (hI.posted m hm h (owed_of_step hp hs ho))
      exact hpost.imp_right (Or.imp_right fun hmark => ⟨hmark, .inl hflag⟩)

/-! ### Every reachable state -/

structure Inv (S : Setup A G V) (s : State T A G V) : Prop where
  control : Control s
  handled : Handled s
  blocked : Blocked s
  marked : Marked S s
  sends : Sends S s

section

omit [DecidableEq T] [DecidableEq A] [DecidableEq G] [DecidableEq V]

theorem inv_initial (asyncs : List A) : Inv S (initial asyncs : State T A G V) where
  control := ⟨by simp [initial], by simp [initial], by simp [initial, Pc.wants]⟩
  handled := by simp [Handled, initial]
  blocked := by simp [Blocked, initial]
  marked := by simp [Marked, initial]
  sends := ⟨by simp [Posting, Raised, initial], by simp [Posting, initial], by simp [Raised, initial]⟩

end

theorem inv_step (h : Inv S s) (hs : step S s a = some s') : Inv S s' where
  control := control_step h.control hs
  handled := handled_step h.handled hs
  blocked := blocked_step h.control h.handled h.blocked hs
  marked := marked_step h.marked hs
  sends := sends_step h.sends hs

theorem Reach.inv {asyncs : List A} {l : List (Act T A G V)} (h : Reach S asyncs l s) : Inv S s :=
  Lib.Run.invariant (fun _ _ _ hi hs => inv_step hi hs) h (inv_initial asyncs)

/-! ### From the tail test to the callback -/

/-- The rest of the pass looks at the flag. -/
def Pc.covers (f : Flag) (pipeW : Bool) : Pc A G → Bool
  | .tailSkipped | .tailSig => true
  | .tailAsync p => p || f = .asyncPending
  | .invoke => pipeW
  | pc => pc.handles f

/-- The pass will deliver `m`. -/
def Due (s : State T A G V) (m : Send A G V) (h : Handler A V) : Prop :=
  Delivered s m h ∨ h ∈ s.pend ∨ s.mark m.src ∧
    (s.flag m.src.flag ∧ s.pc.covers m.src.flag s.pipeW.isSome ∨ s.pc.ahead m.src)

/-- Until the scan is done with it, a raised flag that the pass looks at stays one. -/
theorem covers_step {x : Source A G} (hs : step S s a = some s') (hl : Live S s x) (hm : s.mark x)
    (hm' : s'.mark x) (hf : s.flag x.flag ∧ s.pc.covers x.flag s.pipeW.isSome ∨ s.pc.ahead x) :
    s'.flag x.flag ∧ s'.pc.covers x.flag s'.pipeW.isSome ∨ s'.pc.ahead x := by
  cases a with
  | begin t x =>
    obtain ⟨-, rfl⟩ := step_begin hs
    exact hf
  | send t =>
    obtain ⟨st, m', -, rfl⟩ := step_send hs
    obtain ⟨hpc, -, hpipe, -⟩ := sendStep_frame s t m' st
    rw [hpc, hpipe]
    exact hf.imp_left (And.imp_left ((sendStep_raises s t m' st).2 _))
  | go b =>
    have hcovers := S.covers
    simp only [step, goStep, State.goto, State.feedPipe, State.feedAll] at hs
    cases x <;> simp only [Live, Source.flag] at * <;> split at hs <;> rename_i hpc <;>
      rw [hpc] at hf <;> (try split at hs) <;> (try split at hs) <;> cases hs <;>
      simp_all [Pc.ahead, Pc.covers, Pc.handles, Function.update_apply]
    -- the scan goes past a source whose mark is clear
    · rename_i hskip
      rcases hf with rfl | hf
      · simp [hskip] at hm
      · exact hf
    · rename_i hskip
      rcases hf with rfl | hf
      · exact absurd (hskip hm) hl
      · exact hf
  | _ =>
    simp only [step, State.goto, State.renew] at hs
    (repeat' split at hs) <;> cases hs <;> simp_all [Pc.ahead, Pc.covers, Pc.handles]

theorem due_step (hp : Past s m) (hs : step S s a = some s') (ho : Owed S s' m h) (hd : Due s m h) :
    Due s' m h := by
  rcases hd with hd | hpend | ⟨hmark, hflag⟩
  · exact .inl (delivered_step hs hd)
  · exact (pend_step hp hs ho.2.2 hpend).imp_right .inl
  · rcases mark_step hp hs ho.1 ho.2.2 hmark with hpend | hmark'
    · exact .inr (.inl hpend)
    · exact .inr (.inr ⟨hmark', covers_step hs (owed_of_step hp hs ho).2.1 hmark hmark' hflag⟩)

/-- A pass ends with nothing pending. -/
theorem tails_step (hs : step S s a = some s') :
    s'.tails = s.tails ∨ s.pc = .invoke ∧ s.pend = [] ∧ s.pipeW = none := by
  cases a with
  | begin t x =>
    obtain ⟨-, rfl⟩ := step_begin hs
    exact .inl rfl
  | send t =>
    obtain ⟨st, m', -, rfl⟩ := step_send hs
    exact .inl (sendStep_frame s t m' st).2.2.2.2.2.2.1
  | go b => exact .inl (go_frame hs).2.2.2.2.1
  | done =>
    simp only [step] at hs
    split at hs <;> cases hs
    exact .inr ‹_›
  | _ =>
    simp only [step, State.goto, State.renew] at hs
    (repeat' split at hs) <;> cases hs <;> exact .inl rfl

/-- A due event is delivered before the pass ends: the pass ends in `invoke`, with nothing pending. -/
theorem due_run {l : List (Act T A G V)} {n : ℕ} (hr : Lib.Run (fun s a t => step S s a = some t) s l s')
    (hp : Past s m) (hd : ∀ h, Owed S s m h → Delivered s m h ∨ s.tails = n ∧ Due s m h) :
    ∀ h, Owed S s' m h → Delivered s' m h ∨ s'.tails = n ∧ Due s' m h := by
  refine (Lib.Run.invariant (I := fun s => Past s m ∧
    ∀ h, Owed S s m h → Delivered s m h ∨ s.tails = n ∧ Due s m h) ?_ hr ⟨hp, hd⟩).2
  rintro u a v ⟨hp, hd⟩ hs
  refine ⟨past_step hp hs, fun h ho => ?_⟩
  rcases hd h (owed_of_step hp hs ho) with hdel | ⟨htails, hdue⟩
  · exact .inl (delivered_step hs hdel)
  · rcases tails_step hs with heq | ⟨hpc, hpend, hpipe⟩
    · exact .inr ⟨heq.trans htails, due_step hp hs ho hdue⟩
    · left
      rcases hdue with hdel | hmem | ⟨-, ⟨-, hcov⟩ | hahead⟩
      · exact delivered_step hs hdel
      · simp [hpend] at hmem
      · simp [hpc, hpipe, Pc.covers] at hcov
      · simp [hpc, Pc.ahead] at hahead

/-! ### A signal, an async watcher and two threads -/

/-- One signal with one watcher. -/
def oneEach : Setup Unit Unit Unit where
  signums := [()]
  watchers _ := [()]
  covers g _ := by cases g; simp

/-- `ev_async_send` on thread `t`, up to its test of `pipeWriteWanted`. -/
def asyncSend (t : Bool) : List (Act Bool Unit Unit Unit) :=
  .begin t (.async ()) :: List.replicate 5 (.send t)

/-- The loop thread's next `n` accesses. -/
def loopSteps (n : ℕ) : List (Act Bool Unit Unit Unit) := List.replicate n (.go false)

/-- The start of a pass that sleeps. -/
def sleep : List (Act Bool Unit Unit Unit) := [.pass .block, .go true, .go true, .go true]

/-! ### The two halves -/

/-- No reachable state sleeps on an undelivered wake, and a pass delivers every send that
returned before its tail test. -/
theorem no_lost_wake {asyncs : List A} {l : List (Act T A G V)} (hr : Reach S asyncs l s) :
    (∀ k, s.pc = .poll k true → s.evpipe = false → (∀ t, s.sender t = .idle) →
      (∀ f, s.flag f = false) ∧ ∀ x, Live S s x → s.mark x = false) ∧
    (s.pc = .tailSkipped → ∀ l' s', Lib.Run (fun s a t => step S s a = some t) s l' s' →
      s.tails < s'.tails → ∀ m ∈ s.returned, ∀ h, Owed S s' m h → Delivered s' m h) := by
  have hI := hr.inv
  refine ⟨fun k hpc hpipe hidle => ?_, fun hpc l' s' hr' hlt m hm h ho => ?_⟩
  · have hflag : ∀ f, s.flag f = false := by
      intro f
      by_contra hf
      rcases hI.blocked k hpc f (by simpa using hf) with hev | ⟨t, st, m, ht, -⟩
      · simp [hpipe] at hev
      · simp [hidle t] at ht
    refine ⟨hflag, fun x hl => ?_⟩
    by_contra hm
    rcases hI.marked x hl (by simpa using hm) with hf | ⟨t, st, m, ht, -⟩ | ha
    · simp [hflag] at hf
    · simp [hidle t] at ht
    · simp [hpc, Pc.ahead] at ha
  · have hdue : ∀ h, Owed S s m h → Delivered s m h ∨ s.tails = s.tails ∧ Due s m h := by
      intro h ho
      refine .inr ⟨rfl, ?_⟩
      rcases hI.sends.waiting m (.inl hm) h ho with hdel | hpend | ⟨hmark, hf | ha⟩
      · exact .inl hdel
      · exact .inr (.inl hpend)
      · exact .inr (.inr ⟨hmark, .inl ⟨hf, by simp [hpc, Pc.covers]⟩⟩)
      · simp [hpc, Pc.ahead] at ha
    rcases due_run hr' (hI.sends.past m (.inr (.inl hm))) hdue h ho with hdel | ⟨heq, -⟩
    · exact hdel
    · omega

theorem no_lost_wake_pass :
    (∃ s : State Bool Unit Unit Unit, Reach oneEach [()] sleep s ∧ s.pc = .poll .block true ∧
      ∀ f, s.flag f = false) ∧
    ∃ s s' : State Bool Unit Unit Unit, ∃ m ∈ s.returned,
      Reach oneEach [()] (sleep ++ asyncSend true ++ [.send true, .send true] ++ loopSteps 2) s ∧
      Lib.Run (fun s a t => step oneEach s a = some t) s
        (loopSteps 3 ++ [.pipecb] ++ loopSteps 7 ++ [.call (.async ()), .done]) s' ∧
      Delivered s' m (.async ()) := by
  constructor
  · have hr : ∃ s : State Bool Unit Unit Unit, Reach oneEach [()] sleep s ∧ s.pc = .poll .block true ∧
        s.evpipe = false ∧ ∀ t, s.sender t = .idle :=
      ⟨_, Lib.Run.iff_execFrom.mpr rfl, rfl, rfl, fun _ => rfl⟩
    obtain ⟨s, hr, hpc, hpipe, hidle⟩ := hr
    exact ⟨s, hr, hpc, ((no_lost_wake hr).1 .block hpc hpipe hidle).1⟩
  · have hr : ∃ s s' : State Bool Unit Unit Unit, ∃ m ∈ s.returned,
        Reach oneEach [()] (sleep ++ asyncSend true ++ [.send true, .send true] ++ loopSteps 2) s ∧
        Lib.Run (fun s a t => step oneEach s a = some t) s
          (loopSteps 3 ++ [.pipecb] ++ loopSteps 7 ++ [.call (.async ()), .done]) s' ∧
        s.pc = .tailSkipped ∧ s.tails < s'.tails ∧ Owed oneEach s' m (.async ()) :=
      ⟨_, _, _, .head _, Lib.Run.iff_execFrom.mpr rfl, Lib.Run.iff_execFrom.mpr rfl, rfl, by decide,
        by decide⟩
    obtain ⟨s, s', m, hm, hr, hr', hpc, hlt, ho⟩ := hr
    exact ⟨s, s', m, hm, hr, hr', (no_lost_wake hr).2 hpc _ s' hr' hlt m hm _ ho⟩

end Wake
end Qev
