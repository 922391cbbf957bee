/-
# What the wake handshake keeps

A raised flag is always on its way to `pipecb`: `pipeWriteSkipped` is set, or
the evpipe holds something, or the sender that raised it is about to see to one
of the two, or the loop thread is on its way (`Handled`). A pass that sleeps has
published `pipeWriteWanted` first, so that there only the evpipe and a sender
that writes it remain (`Blocked`). A raised mark keeps its flag raised until
`pipecb` scans (`Marked`).
-/
import Qev.Wake.Model

namespace Qev
namespace Wake

variable {T A G V : Type} [DecidableEq T] [DecidableEq A] [DecidableEq G] [DecidableEq V]

/-! ### Senders in mid-protocol -/

/-- Some sender's next access is one of `L`. -/
def Sending (sender : T → Sender A G V) (L : List Stage) : Prop :=
  ∃ t st m, sender t = .busy st m ∧ st ∈ L

section

omit [DecidableEq A] [DecidableEq G] [DecidableEq V]

theorem Sending.busy {f : T → Sender A G V} {L : List Stage} {t : T} {st : Stage} {m : Send A G V}
    (h : st ∈ L) : Sending (Function.update f t (.busy st m)) L :=
  ⟨t, st, m, Function.update_self .., h⟩

theorem Sending.other {f : T → Sender A G V} {L : List Stage} {t : T} {x : Sender A G V}
    (ht : ∀ st m, f t = .busy st m → st ∉ L) (h : Sending f L) :
    Sending (Function.update f t x) L := by
  obtain ⟨t', st, m, ht', hL⟩ := h
  have hne : t' ≠ t := fun he => ht st m (he ▸ ht') hL
  exact ⟨t', st, m, by rw [Function.update_of_ne hne, ht'], hL⟩

/-- A sender is about to raise the flag of `x`, whose mark it has stored. -/
def Raising (sender : T → Sender A G V) (x : Source A G) : Prop :=
  ∃ t st m, sender t = .busy st m ∧ st ∈ [Stage.testFlag, Stage.setFlag] ∧ m.src = x

theorem Raising.busy {f : T → Sender A G V} {t : T} {st : Stage} {m : Send A G V}
    (h : st ∈ [Stage.testFlag, Stage.setFlag]) : Raising (Function.update f t (.busy st m)) m.src :=
  ⟨t, st, m, Function.update_self .., h, rfl⟩

theorem Raising.other {f : T → Sender A G V} {x : Source A G} {t : T} {y : Sender A G V}
    (ht : ∀ st m, f t = .busy st m → st ∈ [Stage.testFlag, Stage.setFlag] → m.src ≠ x)
    (h : Raising f x) : Raising (Function.update f t y) x := by
  obtain ⟨t', st, m, ht', hst, hx⟩ := h
  have hne : t' ≠ t := fun he => ht st m (he ▸ ht') hst hx
  exact ⟨t', st, m, by rw [Function.update_of_ne hne, ht'], hst, hx⟩

end

theorem mem_foldl_feed {l p : List (Handler A V)} {h : Handler A V} :
    h ∈ l.foldl feed p ↔ h ∈ p ∨ h ∈ l := by
  induction l generalizing p with
  | nil => simp
  | cons a l ih =>
    rw [List.foldl_cons, ih]
    unfold feed
    split <;> grind

/-! ### Where the loop thread is -/

/-- On the way to testing the flag in `pipecb`. -/
def Pc.handles (f : Flag) : Pc A G → Bool
  | .cbDrain | .cbSkipped | .cbTestSig | .cbClearSig => true
  | .cbScanSig _ | .cbTakeSig _ _ | .cbTestAsync | .cbClearAsync => f = .asyncPending
  | _ => false

/-- From the return of the poll to the end of the pass, out of `pipecb`. -/
def Pc.tail : Pc A G → Bool
  | .clearWanted | .tailSkipped | .tailSig | .tailAsync _ | .invoke => true
  | _ => false

/-- In `ev_invoke_pending`. -/
def Pc.delivers : Pc A G → Bool
  | .invoke | .cbDrain | .cbSkipped | .cbTestSig | .cbClearSig | .cbScanSig _ | .cbTakeSig _ _
  | .cbTestAsync | .cbClearAsync | .cbScanAsync _ | .cbTakeAsync _ _ => true
  | _ => false

/-- `pipeWriteWanted` is set: in the poll of a pass that sleeps, and just before. -/
def Pc.wants : Pc A G → Bool
  | .testSkipped => true
  | .poll _ sleeps => sleeps
  | _ => false

/-- The scan of `pipecb` has not come to `x` yet. -/
def Pc.ahead (x : Source A G) : Pc A G → Prop
  | .cbScanSig rest => ∃ g ∈ rest, x = .signal g
  | .cbTakeSig g rest => x = .signal g ∨ ∃ g ∈ rest, x = .signal g
  | .cbScanAsync rest => ∃ w ∈ rest, x = .async w
  | .cbTakeAsync w rest => x = .async w ∨ ∃ w ∈ rest, x = .async w
  | _ => False

variable {S : Setup A G V} {s s' : State T A G V} {a : Act T A G V} {t : T}

theorem step_send (hs : step S s (.send t) = some s') :
    ∃ st m, s.sender t = .busy st m ∧ s' = sendStep s t m st := by
  simp only [step] at hs
  split at hs
  · cases hs
  · rename_i st m ht
    exact ⟨st, m, ht, (Option.some.inj hs).symm⟩

section

omit [DecidableEq V]

/-- A sender leaves the loop's own variables alone. -/
theorem sendStep_frame (s : State T A G V) (t : T) (m : Send A G V) (st : Stage) :
    (sendStep s t m st).pc = s.pc ∧ (sendStep s t m st).asyncs = s.asyncs ∧
      (sendStep s t m st).pipeW = s.pipeW ∧ (sendStep s t m st).pend = s.pend ∧
      (sendStep s t m st).calls = s.calls ∧ (sendStep s t m st).epoch = s.epoch ∧
      (sendStep s t m st).tails = s.tails ∧
      (sendStep s t m st).pipeWriteWanted = s.pipeWriteWanted := by
  cases st <;> simp only [sendStep] <;> (try split) <;> exact ⟨rfl, rfl, rfl, rfl, rfl, rfl, rfl, rfl⟩

/-- A sender only raises marks and flags. -/
theorem sendStep_raises (s : State T A G V) (t : T) (m : Send A G V) (st : Stage) :
    (∀ x, s.mark x → (sendStep s t m st).mark x) ∧ (∀ f, s.flag f → (sendStep s t m st).flag f) := by
  cases st <;> simp only [sendStep] <;> (try split) <;>
    simp only [State.sendAt, State.sendRet, Function.update_apply] <;>
    refine ⟨fun _ h => ?_, fun _ h => ?_⟩ <;> (try split) <;> first | rfl | exact h

end

theorem step_begin {x : Source A G} (hs : step S s (.begin t x) = some s') :
    s.sender t = .idle ∧ s' = s.sendAt t .mark ⟨x, s.calls, s.epoch⟩ := by
  simp only [step] at hs
  split at hs <;> rename_i ht
  · split at hs <;> cases hs
    exact ⟨ht, rfl⟩
  · cases hs

section

omit [DecidableEq T]

/-- The loop thread's accesses leave the senders, the watchers and the history alone. -/
theorem go_frame {b : Bool} (hs : goStep S s b = some s') :
    s'.sender = s.sender ∧ s'.asyncs = s.asyncs ∧ s'.calls = s.calls ∧ s'.epoch = s.epoch ∧
      s'.tails = s.tails ∧ s'.returned = s.returned := by
  simp only [goStep, State.goto, State.feedPipe, State.feedAll] at hs
  split at hs <;> (try split at hs) <;> (try split at hs) <;> cases hs <;>
    exact ⟨rfl, rfl, rfl, rfl, rfl, rfl⟩

end

section

omit [DecidableEq T] [DecidableEq G]

theorem ne_nil_of_renew {h : Handler A V} (hp : (s.renew h).pend ≠ []) : s.pend ≠ [] := by
  intro he
  exact hp (by simp [State.renew, he])

end

structure Control (s : State T A G V) : Prop where
  pend : s.pend ≠ [] → s.pc.delivers
  pipeW : s.pipeW.isSome → s.pc.tail
  wanted : s.pc.wants → s.pipeWriteWanted

theorem control_step (h : Control s) (hs : step S s a = some s') : Control s' := by
  obtain ⟨hpend, hpipe, hwanted⟩ := h
  cases a with
  | send t =>
    obtain ⟨st, m, -, rfl⟩ := step_send hs
    obtain ⟨hpc, -, hw, hp, -, -, -, hwd⟩ := sendStep_frame s t m st
    exact ⟨by rwa [hp, hpc], by rwa [hw, hpc], by rwa [hwd, hpc]⟩
  | go b =>
    simp only [step, goStep, State.goto, State.feedPipe, State.feedAll] at hs
    split at hs <;> (try split at hs) <;> (try split at hs) <;> cases hs <;>
      constructor <;> simp_all [Pc.delivers, Pc.tail, Pc.wants]
  | evAsyncStart w | evAsyncStop w | evClearPending h =>
    simp only [step] at hs
    split at hs <;> cases hs
    exact ⟨fun hp => hpend (ne_nil_of_renew hp), hpipe, hwanted⟩
  | _ =>
    simp only [step, State.goto, State.sendAt] at hs
    (repeat' split at hs) <;> cases hs <;> constructor <;> simp_all [Pc.delivers, Pc.tail, Pc.wants]

/-! ### Raised flags -/

/-- A raised flag is on its way to `pipecb`. -/
def Handled (s : State T A G V) : Prop :=
  ∀ f, s.flag f → s.pipeWriteSkipped ∨ s.evpipe ∨ Sending s.sender [.setSkipped, .write] ∨
    s.pipeW.isSome ∨ s.pc.handles f

section

omit [DecidableEq A] [DecidableEq G] [DecidableEq V]

theorem Handled.other (h : Handled s) (ht : ∀ st m, s.sender t = .busy st m → st ∉ [.setSkipped, .write])
    (x : Sender A G V) (r : List (Send A G V)) :
    Handled { s with sender := Function.update s.sender t x, returned := r } :=
  fun f hf => (h f hf).imp_right (Or.imp_right (Or.imp_left (.other ht)))

end

section

omit [DecidableEq V]

theorem handled_send {st : Stage} {m : Send A G V} (h : Handled s) (ht : s.sender t = .busy st m) :
    Handled (sendStep s t m st) := by
  cases st with
  | mark => exact h.other (by simp [ht]) _ s.returned
  | testFlag =>
    simp only [sendStep]
    split <;> exact h.other (by simp [ht]) _ _
  | setFlag => exact fun _ _ => .inr (.inr (.inl (.busy (by simp))))
  | setSkipped => exact fun _ _ => .inl rfl
  | testWanted =>
    simp only [sendStep]
    split <;> exact h.other (by simp [ht]) _ _
  | clearSkipped => exact fun _ _ => .inr (.inr (.inl (.busy (by simp))))
  | write => exact fun _ _ => .inr (.inl rfl)

end

theorem handled_step (h : Handled s) (hs : step S s a = some s') : Handled s' := by
  cases a with
  | begin t x =>
    obtain ⟨ht, rfl⟩ := step_begin hs
    exact h.other (by simp [ht]) _ s.returned
  | send t =>
    obtain ⟨st, m, ht, rfl⟩ := step_send hs
    exact handled_send h ht
  | go b =>
    intro f hf
    have hold := h f
    simp only [step, goStep, State.goto, State.feedPipe, State.feedAll] at hs
    split at hs <;> rename_i hpc <;> rw [hpc] at hold <;> (try split at hs) <;> (try split at hs) <;>
      cases hs <;> cases f <;> simp_all [Pc.handles]
  | _ =>
    intro f hf
    have hold := h f
    simp only [step, State.goto, State.renew] at hs
    (repeat' split at hs) <;> cases hs <;> simp_all [Pc.handles]

/-- While the loop sleeps, a raised flag has its byte in the evpipe or on its way there. -/
def Blocked (s : State T A G V) : Prop :=
  ∀ k, s.pc = .poll k true → ∀ f, s.flag f →
    s.evpipe ∨ Sending s.sender [.setSkipped, .testWanted, .clearSkipped, .write]

section

omit [DecidableEq A] [DecidableEq G] [DecidableEq V]

theorem Blocked.other (h : Blocked s)
    (ht : ∀ st m, s.sender t = .busy st m → st ∉ [.setSkipped, .testWanted, .clearSkipped, .write])
    (x : Sender A G V) (r : List (Send A G V)) :
    Blocked { s with sender := Function.update s.sender t x, returned := r } :=
  fun k hk f hf => (h k hk f hf).imp_right (.other ht)

end

section

omit [DecidableEq V]

theorem blocked_send {st : Stage} {m : Send A G V} (hc : Control s) (h : Blocked s)
    (ht : s.sender t = .busy st m) : Blocked (sendStep s t m st) := by
  cases st with
  | mark => exact h.other (by simp [ht]) _ s.returned
  | testFlag =>
    simp only [sendStep]
    split <;> exact h.other (by simp [ht]) _ _
  | testWanted =>
    intro k hk f hf
    rw [(sendStep_frame s t m _).1] at hk
    have hwanted : s.pipeWriteWanted := hc.wanted (by rw [hk]; rfl)
    simp only [sendStep, if_pos hwanted]
    exact .inr (.busy (by simp))
  | setFlag | setSkipped | clearSkipped => exact fun _ _ _ _ => .inr (.busy (by simp))
  | write => exact fun _ _ _ _ => .inl rfl

end

theorem blocked_step (hc : Control s) (hh : Handled s) (h : Blocked s) (hs : step S s a = some s') :
    Blocked s' := by
  cases a with
  | begin t x =>
    obtain ⟨ht, rfl⟩ := step_begin hs
    exact h.other (by simp [ht]) _ s.returned
  | send t =>
    obtain ⟨st, m, ht, rfl⟩ := step_send hs
    exact blocked_send hc h ht
  | go b =>
    -- the one way in is from `testSkipped`, where no skip was stored: there `Handled` is all that is left
    intro k hk f hf
    have hsub : Sending s.sender [.setSkipped, .write] →
        Sending s.sender [.setSkipped, .testWanted, .clearSkipped, .write] :=
      fun ⟨t, st, m, ht, hL⟩ => ⟨t, st, m, ht, by rcases List.mem_pair.mp hL with rfl | rfl <;> simp⟩
    have hhandled := hh f
    have hpipe := hc.pipeW
    simp only [step, goStep, State.goto, State.feedPipe, State.feedAll] at hs
    split at hs <;> rename_i hpc <;> rw [hpc] at hhandled hpipe <;> (try split at hs) <;>
      (try split at hs) <;> cases hs <;> simp_all [Pc.handles, Pc.tail]
    exact hhandled.imp_right hsub
  | _ =>
    intro k hk f hf
    have hold := h k
    simp only [step, State.goto, State.renew] at hs
    (repeat' split at hs) <;> cases hs <;> simp_all [Pc.user]

/-! ### Marks -/

/-- An event of `x` has a watcher to go to. -/
def Live (S : Setup A G V) (s : State T A G V) : Source A G → Prop
  | .async w => w ∈ s.asyncs
  | .signal g => S.watchers g ≠ []

instance (S : Setup A G V) (s : State T A G V) : (x : Source A G) → Decidable (Live S s x)
  | .async w => inferInstanceAs (Decidable (w ∈ s.asyncs))
  | .signal g => inferInstanceAs (Decidable (S.watchers g ≠ []))

/-- A stored mark has its flag raised, until the scan comes to it. -/
def Marked (S : Setup A G V) (s : State T A G V) : Prop :=
  ∀ x, Live S s x → s.mark x → s.flag x.flag ∨ Raising s.sender x ∨ s.pc.ahead x

section

omit [DecidableEq A] [DecidableEq G] [DecidableEq V]

theorem Marked.other (h : Marked S s)
    (ht : ∀ st m, s.sender t = .busy st m → st ∉ [Stage.testFlag, Stage.setFlag])
    (y : Sender A G V) (r : List (Send A G V)) :
    Marked S { s with sender := Function.update s.sender t y, returned := r } := by
  intro x hl hm
  refine (h x ?_ hm).imp_right (Or.imp_left (.other fun st m hst hmem => absurd hmem (ht st m hst)))
  cases x <;> exact hl

end

section

omit [DecidableEq V]

theorem live_sendStep {x : Source A G} {m : Send A G V} {st : Stage} :
    Live S (sendStep s t m st) x ↔ Live S s x := by
  cases x
  · unfold Live
    rw [(sendStep_frame s t m st).2.1]
  · exact Iff.rfl

theorem marked_send {st : Stage} {m : Send A G V} (h : Marked S s) (ht : s.sender t = .busy st m) :
    Marked S (sendStep s t m st) := by
  cases st with
  | mark =>
    intro x hl hm
    rw [live_sendStep] at hl
    by_cases hx : m.src = x
    · subst hx
      exact .inr (.inl ⟨t, .testFlag, _, Function.update_self .., by simp, rfl⟩)
    · have hm' : s.mark x := by simpa [sendStep, State.sendAt, Function.update_of_ne (Ne.symm hx)] using hm
      exact (h x hl hm').imp_right (Or.imp_left (.other (by simp [ht])))
  | testFlag =>
    intro x hl hm
    rw [live_sendStep] at hl
    by_cases hflag : s.flag m.src.flag
    · simp only [sendStep, if_pos hflag] at hm ⊢
      by_cases hx : m.src = x
      · exact .inl (hx ▸ hflag)
      · exact (h x hl hm).imp_right (Or.imp_left (.other (by simp [ht, hx])))
    · simp only [sendStep, if_neg hflag] at hm ⊢
      by_cases hx : m.src = x
      · exact .inr (.inl (hx ▸ .busy (by simp)))
      · exact (h x hl hm).imp_right (Or.imp_left (.other (by simp [ht, hx])))
  | setFlag =>
    intro x hl hm
    rw [live_sendStep] at hl
    by_cases hx : m.src.flag = x.flag
    · left
      simp [sendStep, State.sendAt, ← hx]
    · refine (h x hl hm).imp (fun hf => ?_) (Or.imp_left (.other ?_))
      · simpa [sendStep, State.sendAt, Function.update_of_ne (Ne.symm hx)] using hf
      · simp only [ht]
        rintro _ _ ⟨⟩ - rfl
        exact hx rfl
  | testWanted =>
    simp only [sendStep]
    split <;> exact h.other (by simp [ht]) _ _
  | setSkipped | clearSkipped => exact h.other (by simp [ht]) _ s.returned
  | write => exact h.other (by simp [ht]) _ (m :: s.returned)

end

theorem marked_step (h : Marked S s) (hs : step S s a = some s') : Marked S s' := by
  cases a with
  | begin t x =>
    obtain ⟨ht, rfl⟩ := step_begin hs
    exact h.other (by simp [ht]) _ s.returned
  | send t =>
    obtain ⟨st, m, ht, rfl⟩ := step_send hs
    exact marked_send h ht
  | go b =>
    intro x hl hm
    have hold := h x
    have hcovers := S.covers
    simp only [step, goStep, State.goto, State.feedPipe, State.feedAll] at hs
    split at hs <;> rename_i hpc <;> rw [hpc] at hold <;> (try split at hs) <;> (try split at hs) <;>
      cases hs <;> cases x <;> simp_all [Live, Source.flag, Pc.ahead, Function.update_apply]
    -- the scan goes past a source whose mark is clear
    · rename_i g rest g' hskip
      have hne : g' ≠ g := by
        rintro rfl
        exact hl (hskip hm)
      simpa [hpc, Pc.ahead, Source.flag, hne] using h (.signal g') hl hm
    · rename_i w rest w' hskip
      have hne : w' ≠ w := by
        rintro rfl
        simp [hskip] at hm
      simpa [hpc, Pc.ahead, Source.flag, hne] using h (.async w') hl hm
  | _ =>
    intro x hl hm
    have hold := h x
    simp only [step, State.goto, State.renew] at hs
    (repeat' split at hs) <;> cases hs <;> cases x <;>
      simp_all [Live, Pc.ahead, Function.update_apply]

end Wake
end Qev
