/-
# ev_invoke_pending and re-entrant callbacks

The queues as a machine. User code (`Ctl.user`) feeds, clears, stops and starts
watchers and calls `ev_invoke_pending`, which runs in two control points: `dec`,
where the outer loop lowers the cursor, and `test`, where the inner loop looks at
the queue under it. An entry found there is popped and its callback is user code
again, one activation deeper, until it returns (`Act.ret`).

* `pending_queues`: in every state reached, also in the middle of a callback, the
  queues and the watchers agree, an entry has the events fed to its watcher since
  it was last invoked or cleared, and an invocation hands over exactly those.
* `priority_dispatch`: an invocation takes the newest entry of the highest
  priority that has one, and an activation that returns leaves nothing pending.
-/
import Qev.Lib.Run
import Qev.Loop.Pending

namespace Qev

open Lib

namespace Pend

variable {W : Type} [DecidableEq W]

/-! ### What was fed -/

/-- What happened to a watcher's events. -/
inductive Hist (W : Type)
  | fed (w : W) (revents : Events)
  | cleared (w : W)
  | invoked (w : W) (revents : Events)

/-- The events fed to each watcher since it was last invoked or cleared, from a history with the newest
first. -/
def fedSince : List (Hist W) → W → List Events
  | [], _ => []
  | .fed w' revents :: l, w => if w = w' then revents :: fedSince l w else fedSince l w
  | .cleared w' :: l, w => if w = w' then [] else fedSince l w
  | .invoked w' _ :: l, w => if w = w' then [] else fedSince l w

theorem fedSince_fed (l : List (Hist W)) (w : W) (revents : Events) :
    fedSince (.fed w revents :: l) = Function.update (fedSince l) w (revents :: fedSince l w) := by
  funext w'
  by_cases h : w' = w
  · simp [fedSince, h]
  · simp [fedSince, h]

theorem fedSince_cleared (l : List (Hist W)) (w : W) :
    fedSince (.cleared w :: l) = Function.update (fedSince l) w [] := by
  funext w'
  by_cases h : w' = w
  · simp [fedSince, h]
  · simp [fedSince, h]

theorem fedSince_invoked (l : List (Hist W)) (w : W) (revents : Events) :
    fedSince (.invoked w revents :: l) = Function.update (fedSince l) w [] := by
  funext w'
  by_cases h : w' = w
  · simp [fedSince, h]
  · simp [fedSince, h]

/-- The history once the watchers of a list were fed, in order. -/
def logFed (ws : List W) (revents : Events) (l : List (Hist W)) : List (Hist W) :=
  ws.foldl (fun l w => .fed w revents :: l) l

/-! ### The machine -/

/-- Where the loop's thread is: in user code, or at one of the loops of `ev_invoke_pending`. -/
inductive Ctl
  | user
  | dec
  | test
  deriving DecidableEq

/-- `depth` is the number of activations of `ev_invoke_pending`. -/
structure Dispatch (W : Type) where
  pend : Pend W
  ctl : Ctl
  depth : ℕ
  log : List (Hist W)

inductive Act (W : Type)
  | feedEvent (w : W) (revents : Events)
  | feedReverse (w : W)
  | feedReverseDone (revents : Events)
  | queueEvents (events : List W) (type : Events)
  | clearPending (w : W)
  | stop (w : W)
  | start (w : W)
  | setPriority (w : W) (pri : ℤ)
  | invokePending
  | ret
  | tick

/-- The loop before anything was fed. -/
def Dispatch.init (pendingW : W) : Dispatch W where
  pend := { pendingW := pendingW, pendings := fun _ _ => ⟨pendingW, 0, 0⟩, pendingcnt := fun _ => 0,
            pendingpri := 0, pending := fun _ => 0, priority := fun _ => 0, rfeeds := [], clock := 0 }
  ctl := .user
  depth := 0
  log := []

/-- One step of `ev_invoke_pending`. -/
def tick (s : Dispatch W) : Option (Dispatch W) :=
  let p := s.pend
  let pri := p.pendingpri
  match s.ctl with
  | .user => none
  | .dec => some { s with pend := { p with pendingpri := pri - 1 }, ctl := .test }
  | .test =>
    if p.pendingcnt pri ≠ 0 then
      let e := p.entry pri (p.pendingcnt pri - 1)
      some { s with pend := p.pop pri, ctl := .user, log := .invoked e.w e.events :: s.log }
    else if pri ≠ 0 then some { s with ctl := .dec }
    else some { s with ctl := .user, depth := s.depth - 1 }

/-- One action of user code. -/
def call (s : Dispatch W) : Act W → Option (Dispatch W)
  | .feedEvent w revents =>
    if w = s.pend.pendingW then none
    else some { s with pend := s.pend.evFeedEvent w revents, log := .fed w revents :: s.log }
  | .feedReverse w =>
    if w = s.pend.pendingW then none else some { s with pend := s.pend.feedReverse w }
  | .feedReverseDone revents =>
    if s.pend.rfeeds = [] then none
    else some { s with pend := s.pend.feedReverseDone revents, log := logFed s.pend.rfeeds revents s.log }
  | .queueEvents events type =>
    if s.pend.pendingW ∈ events then none
    else some { s with pend := s.pend.queueEvents events type, log := logFed events type s.log }
  | .clearPending w => some { s with pend := s.pend.clearPending w, log := .cleared w :: s.log }
  | .stop w => some { s with pend := s.pend.clearPending w, log := .cleared w :: s.log }
  | .start w => some { s with pend := s.pend.priAdjust w }
  | .setPriority w pri =>
    if s.pend.pending w = 0 ∧ minpri ≤ pri ∧ pri ≤ maxpri then some { s with pend := s.pend.setPriority w pri }
    else none
  | .invokePending =>
    some { s with pend := { s.pend with pendingpri := numpri }, ctl := .dec, depth := s.depth + 1 }
  | .ret => if s.depth = 0 then none else some { s with ctl := .test }
  | .tick => none

def step (s : Dispatch W) (a : Act W) : Option (Dispatch W) :=
  if s.ctl = .user then call s a
  else match a with
    | .tick => tick s
    | _ => none

/-- A run of user code and the `ev_invoke_pending` it calls. -/
abbrev Runs (s : Dispatch W) (l : List (Act W)) (t : Dispatch W) : Prop :=
  Run (fun s a t => step s a = some t) s l t

/-! ### The cursor -/

/-- Nothing is queued from the priority `n` on. -/
def Above (p : Pend W) (n : ℕ) : Prop := ∀ q, n ≤ q → p.pendingcnt q = 0

variable {p : Pend W} {fed : W → List Events} {l : List (Hist W)} {w : W}

theorem low_feed (p : Pend W) (w : W) (revents : Events) :
    (p.evFeedEvent w revents).pendingpri ≤ numpri := Nat.sub_le numpri 1

theorem clearPending_frame (p : Pend W) (w : W) : (p.clearPending w).pendingW = p.pendingW ∧
    (p.clearPending w).rfeeds = p.rfeeds ∧ (p.clearPending w).pendingcnt = p.pendingcnt ∧
    (p.clearPending w).pendingpri = p.pendingpri := by
  unfold clearPending
  by_cases h : p.pending w = 0
  · simp [h]
  · simp [h, setEntry, setPending]

section

omit [DecidableEq W]

theorem Ok.above (h : p.Ok fed) : p.Above numpri := h.top

end

theorem Ok.above_feed (h : p.Ok fed) (hw : w ≠ p.pendingW) (revents : Events) :
    (p.evFeedEvent w revents).Above ((p.evFeedEvent w revents).pendingpri + 1) :=
  (ok_feed h hw revents).above

/-- Feeding the watchers of a list, one after the other. -/
theorem Ok.feeds (h : p.Ok (fedSince l)) (ws : List W) (hws : ∀ w ∈ ws, w ≠ p.pendingW) (revents : Events)
    (q : Pend W) (hq : q = ws.foldl (fun p w => p.evFeedEvent w revents) p) :
    q.Ok (fedSince (logFed ws revents l)) ∧ q.pendingW = p.pendingW ∧ q.rfeeds = p.rfeeds ∧
      (p.pendingpri ≤ numpri → q.pendingpri ≤ numpri) ∧
      (p.Above (p.pendingpri + 1) → q.Above (q.pendingpri + 1)) := by
  induction ws generalizing p l with
  | nil =>
    subst hq
    exact ⟨h, rfl, rfl, id, id⟩
  | cons w ws ih =>
    have hw := hws w List.mem_cons_self
    have h' := ok_feed h hw revents
    rw [← fedSince_fed] at h'
    obtain ⟨h₁, h₂, h₃, h₄, h₅⟩ := ih h' (fun w' hw' => by
      rw [pendingW_feed]
      exact hws w' (List.mem_cons_of_mem _ hw')) hq
    exact ⟨h₁, h₂.trans (pendingW_feed ..), h₃.trans (rfeeds_feed ..), fun _ => h₄ (low_feed ..),
      fun _ => h₅ (h.above_feed hw revents)⟩

theorem Ok.setPriority (h : p.Ok fed) (hp : p.pending w = 0) {pri : ℤ}
    (hr : minpri ≤ pri ∧ pri ≤ maxpri) : (p.setPriority w pri).Ok fed := by
  have habs : ∀ w', p.pending w' ≠ 0 → (p.setPriority w pri).abspri w' = p.abspri w' := by
    intro w' hp'
    have hne : w' ≠ w := fun he => hp' (he ▸ hp)
    unfold abspri Pend.setPriority
    simp [hne]
  refine ⟨fun w' => ?_, h.dummy, h.top, fun q i hi hne => ?_, fun w' hp' => ?_, h.queued, fun w' hp' => ?_,
    h.stamps, h.clock⟩
  · unfold Pend.setPriority
    by_cases hw : w' = w
    · simpa [hw] using hr
    · simpa [hw] using h.range w'
  · obtain ⟨h₁, h₂⟩ := h.live q i hi hne
    refine ⟨h₁.trans (habs _ ?_).symm, h₂⟩
    rw [h₂]
    exact Nat.succ_ne_zero i
  · rw [habs w' hp']
    exact h.held w' hp'
  · rw [habs w' hp']
    exact h.events w' hp'

section

omit [DecidableEq W]

theorem Ok.cursor (h : p.Ok fed) (n : ℕ) : ({ p with pendingpri := n } : Pend W).Ok fed :=
  ⟨h.range, h.dummy, h.top, h.live, h.held, h.queued, h.events, h.stamps, h.clock⟩

theorem Ok.feedReverse (h : p.Ok fed) (rfeeds : List W) : ({ p with rfeeds := rfeeds } : Pend W).Ok fed :=
  ⟨h.range, h.dummy, h.top, h.live, h.held, h.queued, h.events, h.stamps, h.clock⟩

end

/-! ### The invariant -/

/-- Every invocation handed over what had been fed since the one before or the last clear. -/
def Handed (pendingW : W) (log : List (Hist W)) : Prop :=
  ∀ l₁ w revents l₂, log = l₁ ++ .invoked w revents :: l₂ → w ≠ pendingW →
    fedSince l₂ w ≠ [] ∧ revents = orAll (fedSince l₂ w)

structure Inv (s : Dispatch W) : Prop where
  ok : s.pend.Ok (fedSince s.log)
  feeds : ∀ w ∈ s.pend.rfeeds, w ≠ s.pend.pendingW
  handed : Handed s.pend.pendingW s.log
  low : s.pend.pendingpri ≤ numpri
  user : s.ctl = .user → 0 < s.depth → s.pend.Above (s.pend.pendingpri + 1)
  dec : s.ctl = .dec → 0 < s.pend.pendingpri ∧ s.pend.Above s.pend.pendingpri
  test : s.ctl = .test → s.pend.Above (s.pend.pendingpri + 1)
  deep : s.ctl ≠ .user → 0 < s.depth

theorem Handed.feed {pendingW : W} (h : Handed pendingW l) (w : W) (revents : Events) :
    Handed pendingW (.fed w revents :: l) := by
  intro l₁ w' revents' l₂ heq hne
  cases l₁ with
  | nil => cases heq
  | cons a l₁ => exact h l₁ w' revents' l₂ (List.cons.inj heq).2 hne

theorem Handed.cleared {pendingW : W} (h : Handed pendingW l) (w : W) :
    Handed pendingW (.cleared w :: l) := by
  intro l₁ w' revents' l₂ heq hne
  cases l₁ with
  | nil => cases heq
  | cons a l₁ => exact h l₁ w' revents' l₂ (List.cons.inj heq).2 hne

theorem Handed.logFed {pendingW : W} (h : Handed pendingW l) (ws : List W) (revents : Events) :
    Handed pendingW (logFed ws revents l) := by
  induction ws generalizing l with
  | nil => exact h
  | cons w ws ih => exact ih (h.feed w revents)

theorem Handed.invoked {pendingW : W} (h : Handed pendingW l) {revents : Events}
    (hw : w ≠ pendingW → fedSince l w ≠ [] ∧ revents = orAll (fedSince l w)) :
    Handed pendingW (.invoked w revents :: l) := by
  intro l₁ w' revents' l₂ heq hne
  cases l₁ with
  | nil =>
    cases heq
    exact hw hne
  | cons a l₁ => exact h l₁ w' revents' l₂ (List.cons.inj heq).2 hne

theorem inv_init (pendingW : W) : Inv (Dispatch.init pendingW) := by
  refine ⟨⟨fun w => ?_, rfl, fun _ _ => rfl, ?_, ?_, ?_, ?_, ?_, ?_⟩, ?_, ?_, Nat.zero_le _, ?_, ?_, ?_, ?_⟩
  · show minpri ≤ 0 ∧ 0 ≤ maxpri
    decide
  all_goals simp [Dispatch.init, fedSince, Handed]

/-- A step of user code that stays there: what it must keep. -/
theorem Inv.stay {s t : Dispatch W} (h : Inv s) (hu : s.ctl = .user) (hc : t.ctl = .user)
    (hd : t.depth = s.depth) (hok : t.pend.Ok (fedSince t.log))
    (hf : ∀ w ∈ t.pend.rfeeds, w ≠ t.pend.pendingW) (hh : Handed t.pend.pendingW t.log)
    (hl : t.pend.pendingpri ≤ numpri)
    (ha : s.pend.Above (s.pend.pendingpri + 1) → t.pend.Above (t.pend.pendingpri + 1)) : Inv t := by
  refine ⟨hok, hf, hh, hl, fun _ hpos => ha (h.user hu (hd ▸ hpos)), fun hd' => ?_, fun hd' => ?_,
    fun hne => absurd hc hne⟩
  · rw [hc] at hd'
    cases hd'
  · rw [hc] at hd'
    cases hd'

theorem Inv.cleared {s : Dispatch W} (h : Inv s) (hu : s.ctl = .user) (w : W) :
    Inv { s with pend := s.pend.clearPending w, log := .cleared w :: s.log } := by
  obtain ⟨h₁, h₂, h₃, h₄⟩ := clearPending_frame s.pend w
  refine h.stay hu hu rfl ?_ ?_ ?_ (h₄.trans_le h.low) ?_
  · show Ok _ (fedSince (.cleared w :: s.log))
    rw [fedSince_cleared]
    exact ok_clear h.ok
  · show ∀ w' ∈ (s.pend.clearPending w).rfeeds, w' ≠ (s.pend.clearPending w).pendingW
    rw [h₁, h₂]
    exact h.feeds
  · show Handed (s.pend.clearPending w).pendingW _
    rw [h₁]
    exact h.handed.cleared w
  · intro ha q hq
    show (s.pend.clearPending w).pendingcnt q = 0
    rw [h₃]
    exact ha q (h₄ ▸ hq)

theorem inv_call {s t : Dispatch W} {a : Act W} (h : Inv s) (hu : s.ctl = .user) (hs : call s a = some t) :
    Inv t := by
  cases a with
  | feedEvent w revents =>
    simp only [call] at hs
    split at hs
    · cases hs
    · rename_i hw
      cases hs
      refine h.stay hu hu rfl ?_ ?_ ?_ (low_feed ..) fun _ => h.ok.above_feed hw revents
      · show Ok _ (fedSince (.fed w revents :: s.log))
        rw [fedSince_fed]
        exact ok_feed h.ok hw revents
      · simpa using h.feeds
      · simpa using h.handed.feed w revents
  | feedReverse w =>
    simp only [call] at hs
    split at hs
    · cases hs
    · rename_i hw
      cases hs
      refine h.stay hu hu rfl (h.ok.feedReverse _) (fun w' hw' => ?_) h.handed h.low id
      rcases List.mem_cons.mp hw' with rfl | hw'
      · exact hw
      · exact h.feeds w' hw'
  | feedReverseDone revents =>
    simp only [call] at hs
    split at hs
    · cases hs
    · cases hs
      obtain ⟨h₁, h₂, h₃, h₄, h₅⟩ := h.ok.feeds s.pend.rfeeds h.feeds revents _ rfl
      refine h.stay hu hu rfl (h₁.feedReverse []) (fun w' hw' => by cases hw') ?_ (h₄ h.low) h₅
      refine h₂.symm ▸ ?_
      exact h.handed.logFed _ _
  | queueEvents events type =>
    simp only [call] at hs
    split at hs
    · cases hs
    · rename_i hw
      cases hs
      obtain ⟨h₁, h₂, h₃, h₄, h₅⟩ := h.ok.feeds events (fun w' hw' he => hw (he ▸ hw')) type
        (s.pend.queueEvents events type) rfl
      refine h.stay hu hu rfl h₁ ?_ ?_ (h₄ h.low) h₅
      · simpa only [h₂, h₃] using h.feeds
      · simpa only [h₂] using h.handed.logFed events type
  | clearPending w =>
    cases hs
    exact h.cleared hu w
  | stop w =>
    cases hs
    exact h.cleared hu w
  | start w =>
    cases hs
    rw [h.ok.range.priAdjust w]
    exact h
  | setPriority w pri =>
    simp only [call] at hs
    split at hs
    · rename_i hw
      cases hs
      exact h.stay hu hu rfl (h.ok.setPriority hw.1 hw.2) h.feeds h.handed h.low id
    · cases hs
  | invokePending =>
    cases hs
    exact ⟨h.ok.cursor _, h.feeds, h.handed, le_refl numpri, fun hc => (by cases hc),
      fun _ => ⟨show 0 < numpri by decide, h.ok.above⟩, fun hc => (by cases hc), fun _ => Nat.succ_pos _⟩
  | ret =>
    simp only [call] at hs
    split at hs
    · cases hs
    · rename_i hd
      cases hs
      have hpos := Nat.pos_of_ne_zero hd
      exact ⟨h.ok, h.feeds, h.handed, h.low, fun hc => (by cases hc), fun hc => (by cases hc),
        fun _ => h.user hu hpos, fun _ => hpos⟩
  | tick => cases hs

section

omit [DecidableEq W]

/-- The entry on top of a queue has what was fed to its watcher. -/
theorem Ok.top_events (h : p.Ok fed) {pri i : ℕ} (hcnt : p.pendingcnt pri = i + 1)
    (hw : (p.entry pri i).w ≠ p.pendingW) :
    fed (p.entry pri i).w ≠ [] ∧ (p.entry pri i).events = orAll (fed (p.entry pri i).w) := by
  obtain ⟨hpri, hpend⟩ := h.live pri i (by omega) hw
  have hne : p.pending (p.entry pri i).w ≠ 0 := by
    rw [hpend]
    exact Nat.succ_ne_zero i
  refine ⟨(h.queued _).mp hne, ?_⟩
  have hev := h.events _ hne
  rwa [hpend, Nat.add_sub_cancel, ← hpri] at hev

end

theorem above_pop {n pri : ℕ} (h : p.Above n) : (p.pop pri).Above n := by
  intro q hq
  show Function.update p.pendingcnt pri _ q = 0
  by_cases hqp : q = pri
  · rw [hqp, Function.update_self, ← hqp, h q hq]
  · rw [Function.update_of_ne hqp]
    exact h q hq

theorem inv_tick {s t : Dispatch W} (h : Inv s) (hs : tick s = some t) : Inv t := by
  unfold tick at hs
  cases hc : s.ctl with
  | user => simp [hc] at hs
  | dec =>
    simp only [hc, Option.some.injEq] at hs
    subst hs
    obtain ⟨hpos, ha⟩ := h.dec hc
    refine ⟨h.ok.cursor _, h.feeds, h.handed, (Nat.pred_le _).trans h.low, fun hc => (by cases hc),
      fun hc => (by cases hc), fun _ q hq => ?_, fun _ => h.deep (by simp [hc])⟩
    exact ha q (show s.pend.pendingpri ≤ q by simp only at hq; omega)
  | test =>
    have hd := h.deep (by simp [hc])
    have ha := h.test hc
    simp only [hc] at hs
    by_cases hcnt : s.pend.pendingcnt s.pend.pendingpri = 0
    · simp only [hcnt, ne_eq, not_true_eq_false, ↓reduceIte] at hs
      by_cases hpri : s.pend.pendingpri = 0
      · simp only [hpri, not_true_eq_false, ↓reduceIte, Option.some.injEq] at hs
        subst hs
        exact ⟨h.ok, h.feeds, h.handed, h.low, fun _ _ => ha, fun hc => (by cases hc), fun hc => (by cases hc),
          fun hc => absurd rfl hc⟩
      · simp only [hpri, not_false_eq_true, ↓reduceIte, Option.some.injEq] at hs
        subst hs
        refine ⟨h.ok, h.feeds, h.handed, h.low, fun hc => (by cases hc),
          fun _ => ⟨Nat.pos_of_ne_zero hpri, fun q hq => ?_⟩, fun hc => (by cases hc), fun _ => hd⟩
        rcases Nat.eq_or_lt_of_le hq with rfl | hlt
        · exact hcnt
        · exact ha q hlt
    · simp only [hcnt, ne_eq, not_false_eq_true, ↓reduceIte, Option.some.injEq] at hs
      subst hs
      obtain ⟨i, hi⟩ := Nat.exists_eq_succ_of_ne_zero hcnt
      refine ⟨?_, h.feeds, h.handed.invoked fun hw => ?_, h.low, fun _ _ => above_pop ha,
        fun hc => (by cases hc), fun hc => (by cases hc), fun hc => absurd rfl hc⟩
      · show Ok _ (fedSince (.invoked _ _ :: s.log))
        rw [fedSince_invoked]
        exact ok_pop h.ok hcnt
      · rw [hi, Nat.succ_sub_one] at hw ⊢
        exact h.ok.top_events hi hw

theorem inv_step {s t : Dispatch W} {a : Act W} (h : Inv s) (hs : step s a = some t) : Inv t := by
  unfold step at hs
  split at hs
  · rename_i hu
    exact inv_call h hu hs
  · split at hs
    · exact inv_tick h hs
    · cases hs

theorem inv_run {s t : Dispatch W} {acts : List (Act W)} (hrun : Runs s acts t) (h : Inv s) : Inv t :=
  Run.invariant (fun _ _ _ h hs => inv_step h hs) hrun h

/-! ### The queues in every state reached -/

/-- The queues and the watchers agree, and every entry has what was fed to its watcher. -/
theorem pending_queues {pendingW : W} {acts : List (Act W)} {s : Dispatch W}
    (hrun : Runs (.init pendingW) acts s) :
    (∀ w n, w ≠ s.pend.pendingW → 0 < n →
      (s.pend.pending w = n ↔
        n ≤ s.pend.pendingcnt (s.pend.abspri w) ∧ (s.pend.entry (s.pend.abspri w) (n - 1)).w = w)) ∧
    (∀ pri i, i < s.pend.pendingcnt pri → (s.pend.entry pri i).w = s.pend.pendingW ∨
      pri = s.pend.abspri (s.pend.entry pri i).w ∧ s.pend.pending (s.pend.entry pri i).w = i + 1) ∧
    (∀ pri i pri' i', i < s.pend.pendingcnt pri → i' < s.pend.pendingcnt pri' →
      (s.pend.entry pri i).w ≠ s.pend.pendingW → (s.pend.entry pri i).w = (s.pend.entry pri' i').w →
      pri = pri' ∧ i = i') ∧
    (∀ w, (s.pend.pending w ≠ 0 ↔ fedSince s.log w ≠ []) ∧
      (s.pend.pending w ≠ 0 → (s.pend.entry (s.pend.abspri w) (s.pend.pending w - 1)).events =
        orAll (fedSince s.log w))) ∧
    Handed s.pend.pendingW s.log := by
  have h := inv_run hrun (inv_init pendingW)
  refine ⟨fun w n hw hn => h.ok.pending_iff hw hn, fun pri i hi => ?_,
    fun pri i pri' i' hi hi' hw he => h.ok.top_unique hi hi' hw he,
    fun w => ⟨h.ok.queued w, h.ok.events w⟩, h.handed⟩
  by_cases hw : (s.pend.entry pri i).w = s.pend.pendingW
  · exact Or.inl hw
  · exact Or.inr (h.ok.live pri i hi hw)

/-- Two feeds of one watcher share an entry, and a cleared watcher has left its own. -/
theorem pending_queues_feed_clear : ∃ s : Dispatch (Fin 3),
    Runs (.init 0) [.feedEvent 1 1, .feedEvent 2 1, .feedEvent 1 2, .clearPending 2] s ∧
      s.pend.pending 1 = 1 ∧ (s.pend.entry (s.pend.abspri 1) (s.pend.pending 1 - 1)).events = 3 ∧
      s.pend.pending 2 = 0 := by
  have hr : ∃ s : Dispatch (Fin 3),
      Runs (.init 0) [.feedEvent 1 1, .feedEvent 2 1, .feedEvent 1 2, .clearPending 2] s ∧
        s.pend.pendingW = 0 ∧ fedSince s.log 1 = [2, 1] ∧ fedSince s.log 2 = [] ∧
        1 ≤ s.pend.pendingcnt (s.pend.abspri 1) ∧ (s.pend.entry (s.pend.abspri 1) 0).w = 1 :=
    ⟨_, Run.iff_execFrom.mpr rfl, rfl, rfl, rfl, by decide, rfl⟩
  obtain ⟨s, hr, hW, h₁, h₂, hle, hent⟩ := hr
  obtain ⟨hiff, -, -, hfed, -⟩ := pending_queues hr
  have hp : s.pend.pending 1 = 1 := (hiff 1 1 (by rw [hW]; decide) one_pos).mpr ⟨hle, hent⟩
  refine ⟨s, hr, hp, ?_, ?_⟩
  · rw [(hfed 1).2 (by rw [hp]; decide), h₁]
    decide
  · by_contra hne
    exact (hfed 2).1.mp hne h₂

/-! ### Order and completeness -/

theorem step_tick {s t : Dispatch W} (hs : step s .tick = some t) : tick s = some t := by
  unfold step at hs
  split at hs
  · cases hs
  · exact hs

/-- What one step of `ev_invoke_pending` does. -/
theorem tick_cases {s t : Dispatch W} (hs : tick s = some t) :
    (s.ctl = .dec ∧ t = { s with pend := { s.pend with pendingpri := s.pend.pendingpri - 1 }, ctl := .test }) ∨
    (s.ctl = .test ∧ ∃ i, s.pend.pendingcnt s.pend.pendingpri = i + 1 ∧
      t = { s with
        pend := s.pend.pop s.pend.pendingpri
        ctl := .user
        log := .invoked (s.pend.entry s.pend.pendingpri i).w (s.pend.entry s.pend.pendingpri i).events ::
          s.log }) ∨
    (s.ctl = .test ∧ s.pend.pendingcnt s.pend.pendingpri = 0 ∧ 0 < s.pend.pendingpri ∧
      t = { s with ctl := .dec }) ∨
    (s.ctl = .test ∧ s.pend.pendingcnt s.pend.pendingpri = 0 ∧ s.pend.pendingpri = 0 ∧
      t = { s with ctl := .user, depth := s.depth - 1 }) := by
  unfold tick at hs
  cases hc : s.ctl with
  | user => simp [hc] at hs
  | dec =>
    simp only [hc, Option.some.injEq] at hs
    exact Or.inl ⟨rfl, hs.symm⟩
  | test =>
    right
    simp only [hc] at hs
    by_cases hcnt : s.pend.pendingcnt s.pend.pendingpri = 0
    · right
      simp only [hcnt, ne_eq, not_true_eq_false, ↓reduceIte] at hs
      by_cases hpri : s.pend.pendingpri = 0
      · simp only [hpri, not_true_eq_false, ↓reduceIte, Option.some.injEq] at hs
        exact Or.inr ⟨rfl, hcnt, hpri, hs.symm⟩
      · simp only [hpri, not_false_eq_true, ↓reduceIte, Option.some.injEq] at hs
        exact Or.inl ⟨rfl, hcnt, Nat.pos_of_ne_zero hpri, hs.symm⟩
    · left
      obtain ⟨i, hi⟩ := Nat.exists_eq_succ_of_ne_zero hcnt
      simp only [hi, ne_eq, Nat.succ_ne_zero, not_false_eq_true, ↓reduceIte, Nat.succ_sub_one,
        Option.some.injEq] at hs
      exact ⟨rfl, i, hi, hs.symm⟩

/-- Steps of `ev_invoke_pending` left before user code at the latest. -/
def remaining (s : Dispatch W) : ℕ :=
  match s.ctl with
  | .user => 0
  | .dec => 2 * s.pend.pendingpri
  | .test => 2 * s.pend.pendingpri + 1

/-- A step of `ev_invoke_pending` is always possible, and brings user code closer. -/
theorem tick_remaining {s : Dispatch W} (h : Inv s) (hc : s.ctl ≠ .user) :
    ∃ t, step s .tick = some t ∧ remaining t < remaining s := by
  obtain ⟨t, ht⟩ : ∃ t, tick s = some t := by
    unfold tick
    cases hc' : s.ctl with
    | user => exact absurd hc' hc
    | dec => exact ⟨_, rfl⟩
    | test =>
      simp only
      split
      · exact ⟨_, rfl⟩
      · split
        · exact ⟨_, rfl⟩
        · exact ⟨_, rfl⟩
  refine ⟨t, by rw [step, if_neg hc, ht], ?_⟩
  rcases tick_cases ht with ⟨hd, rfl⟩ | ⟨ht', i, -, rfl⟩ | ⟨ht', -, -, rfl⟩ | ⟨ht', -, -, rfl⟩
  · have hpos := (h.dec hd).1
    simp only [remaining, hd]
    omega
  · simp [remaining, ht']
  · simp [remaining, ht']
  · simp [remaining, ht']

/-- `ev_invoke_pending` comes to a callback or returns. -/
theorem tick_run (n : ℕ) {s : Dispatch W} (h : Inv s) (hn : remaining s ≤ n) :
    ∃ k t, k ≤ n ∧ Runs s (List.replicate k .tick) t ∧ t.ctl = .user := by
  induction n generalizing s with
  | zero =>
    refine ⟨0, s, le_refl _, .nil s, ?_⟩
    cases hc : s.ctl with
    | user => rfl
    | dec =>
      have := (h.dec hc).1
      simp only [remaining, hc] at hn
      omega
    | test => simp [remaining, hc] at hn
  | succ n ih =>
    by_cases hc : s.ctl = .user
    · exact ⟨0, s, Nat.zero_le _, .nil s, hc⟩
    · obtain ⟨t, ht, hlt⟩ := tick_remaining h hc
      obtain ⟨k, u, hk, hrun, hu⟩ := ih (inv_step h ht) (by omega)
      exact ⟨k + 1, u, by omega, .cons ht hrun, hu⟩

/-- The newest entry of the highest priority goes first, and nothing is left when `ev_invoke_pending`
returns, which it does once the callbacks have nothing more to say. -/
theorem priority_dispatch {pendingW : W} {acts : List (Act W)} {s : Dispatch W}
    (hrun : Runs (.init pendingW) acts s) :
    (∀ t w revents, step s .tick = some t → t.log = .invoked w revents :: s.log →
      ∃ pri i, s.pend.pendingcnt pri = i + 1 ∧ (s.pend.entry pri i).w = w ∧
        (s.pend.entry pri i).events = revents ∧ (∀ q, pri < q → s.pend.pendingcnt q = 0) ∧
        ∀ j < i, (s.pend.entry pri j).stamp < (s.pend.entry pri i).stamp) ∧
    (∀ t, step s .tick = some t → t.depth < s.depth → ∀ q, t.pend.pendingcnt q = 0) ∧
    (s.ctl ≠ .user →
      ∃ k t, k ≤ 2 * numpri + 1 ∧ Runs s (List.replicate k .tick) t ∧ t.ctl = .user) := by
  have h := inv_run hrun (inv_init pendingW)
  refine ⟨fun t w revents hs hlog => ?_, fun t hs hd => ?_, fun hc => tick_run _ h ?_⟩
  · rcases tick_cases (step_tick hs) with ⟨-, rfl⟩ | ⟨hc, i, hi, rfl⟩ | ⟨-, -, -, rfl⟩ | ⟨-, -, -, rfl⟩
    · exact absurd hlog.symm (List.cons_ne_self _ _)
    · obtain ⟨rfl, rfl⟩ := Hist.invoked.inj (List.cons.inj hlog).1
      refine ⟨_, i, hi, rfl, rfl, h.test hc, fun j hj => h.ok.stamps _ j i hj ?_⟩
      omega
    · exact absurd hlog.symm (List.cons_ne_self _ _)
    · exact absurd hlog.symm (List.cons_ne_self _ _)
  · rcases tick_cases (step_tick hs) with ⟨-, rfl⟩ | ⟨-, i, -, rfl⟩ | ⟨-, -, -, rfl⟩ | ⟨hc, hcnt, hpri, rfl⟩
    · exact absurd hd (lt_irrefl _)
    · exact absurd hd (lt_irrefl _)
    · exact absurd hd (lt_irrefl _)
    · intro q
      have ha := h.test hc
      rw [hpri] at ha hcnt
      rcases Nat.eq_zero_or_pos q with rfl | hq
      · exact hcnt
      · exact ha q hq
  · have hlow := h.low
    unfold remaining
    split <;> omega

/-- A callback feeds a watcher of a higher priority: that one is next. -/
theorem priority_dispatch_higher : ∃ s t : Dispatch (Fin 4),
    Runs (.init 0) [.setPriority 3 1, .feedEvent 1 1, .feedEvent 2 1, .invokePending, .tick, .tick, .tick, .tick,
      .tick, .tick, .feedEvent 3 1, .ret, .tick, .tick] s ∧
      step s .tick = some t ∧ t.log = .invoked 3 1 :: s.log ∧
      ∃ pri, 0 < s.pend.pendingcnt pri ∧ ∀ q, pri < q → s.pend.pendingcnt q = 0 := by
  have hr : ∃ s t : Dispatch (Fin 4),
      Runs (.init 0) [.setPriority 3 1, .feedEvent 1 1, .feedEvent 2 1, .invokePending, .tick, .tick, .tick,
        .tick, .tick, .tick, .feedEvent 3 1, .ret, .tick, .tick] s ∧
        step s .tick = some t ∧ t.log = .invoked 3 1 :: s.log :=
    ⟨_, _, Run.iff_execFrom.mpr rfl, rfl, rfl⟩
  obtain ⟨s, t, hr, hs, hlog⟩ := hr
  obtain ⟨pri, i, hi, -, -, hq, -⟩ := (priority_dispatch hr).1 t 3 1 hs hlog
  exact ⟨s, t, hr, hs, hlog, pri, by omega, hq⟩

end Pend

end Qev
