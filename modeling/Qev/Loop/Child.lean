/-
# Child statuses

`childcb` reaps one status each time it is called. It feeds itself again before it feeds the watchers that the status
is for, so with all of them at `EV_MAXPRI` they are called first, the entry of a queue that was made last being the
one that is taken first. That needs each of them to get an entry of its own there, and it gets none if it is pending
already: then it is at another priority, or below `childev` in the queue, and another status can be reaped, and
`rpid` and `rstatus` be written again, before it is called.

`Entry` is a status reaped for a watcher, with the calls of the watcher since. `Due` says that the watcher has yet to
be called. While one is, its entry is above the one of `childev` (`Inv.due`), so none is when `childcb` is called.
-/
import Qev.Loop.Invoke
import Qev.Loop.Priority

namespace Qev

open Lib

namespace Child

/-- `EV_PID_HASHSIZE`, and `WIFSTOPPED (status) || WIFCONTINUED (status)`. -/
structure Env (S : Type) where
  hashsize : ℕ
  pos : 0 < hashsize
  traced : S → Bool

/-- The index of a list of `childs`. The size is a power of two, so the mask of it takes the remainder. -/
def Env.chain {S : Type} (e : Env S) (pid : ℤ) : ℕ := (pid % e.hashsize).toNat

/-- A status that was reaped for a watcher. `calls` are the `rpid` and `rstatus` it was called with since, newest
first, `fed` is how often it was fed by others than `child_reap`, and `cleared` whether it was stopped or cleared
before it was called. -/
structure Entry (S : Type) where
  pid : ℤ
  status : S
  calls : List (ℤ × S)
  fed : ℕ
  cleared : Bool

/-- The watcher was called with the status, as often as it was fed. -/
structure Entry.Seen {S : Type} (x : Entry S) : Prop where
  called : x.cleared = true ∨ x.calls ≠ []
  told : ∀ c ∈ x.calls, c = (x.pid, x.status)
  once : x.calls.length ≤ 1 + x.fed

/-- `childing` is set where `childcb` is called. `ledger` is history: what was reaped for each watcher, newest
first. -/
structure State (U S : Type) where
  queues : Pend.Dispatch (Watcher U)
  childs : Lists U
  pid : U → ℤ
  trace : U → Bool
  rpid : U → ℤ
  rstatus : U → S
  childing : Bool
  ledger : U → List (Entry S)

/-- The watcher `ev_loop_init` starts for `SIGCHLD`. -/
abbrev childev {U : Type} : Watcher U := .signal .childev

variable {U S : Type} [DecidableEq U] (e : Env S) (s : State U S)

/-- A default loop, with `childev` at `EV_MAXPRI`. -/
def init [Inhabited S] : State U S where
  queues := let d := Pend.Dispatch.init .pendingW
            { d with pend := d.pend.setPriority childev maxpri }
  childs := ⟨fun _ => [], fun _ => 0⟩
  pid := fun _ => 0
  trace := fun _ => false
  rpid := fun _ => 0
  rstatus := fun _ => default
  childing := false
  ledger := fun _ => []

namespace State

/-! ### The ledger -/

/-- The status that was reaped last for a watcher gets an entry changed. -/
def mark (w : U) (f : Entry S → Entry S) : State U S :=
  { s with ledger := Function.update s.ledger w ((s.ledger w).modifyHead f) }

/-- The child watcher that a watcher is. -/
def child : Watcher U → Option U
  | .child w => some w
  | _ => none

/-- As `mark`, if a watcher is a child watcher. -/
def marks (v : Watcher U) (f : Entry S → Entry S) : State U S := (child v).elim s fun w => s.mark w f

def fed (v : Watcher U) : State U S := s.marks v fun x => { x with fed := x.fed + 1 }

def cleared (v : Watcher U) : State U S := s.marks v fun x => { x with cleared := x.cleared || x.calls.isEmpty }

/-- A watcher is called, with what it has in `rpid` and `rstatus`. -/
def called (v : Watcher U) : State U S :=
  (child v).elim s fun w => s.mark w fun x => { x with calls := (s.rpid w, s.rstatus w) :: x.calls }

/-! ### The functions -/

/-- What the status of a pid is for: the active watchers of the pid and those of any, but one that only tells of a
trace if the watcher wants to know. -/
def Admits (pid : ℤ) (status : S) (w : U) : Prop :=
  s.childs.active w ≠ 0 ∧ (s.pid w = pid ∨ s.pid w = 0) ∧ (e.traced status = true → s.trace w = true)

instance (pid : ℤ) (status : S) (w : U) : Decidable (s.Admits e pid status w) :=
  inferInstanceAs (Decidable (_ ∧ _ ∧ (_ → _)))

def evChildStart (w : U) : State U S :=
  if s.childs.active w ≠ 0 then s
  else
    { s with
      queues := { s.queues with pend := s.queues.pend.priAdjust (.child w) }
      childs := s.childs.start (e.chain (s.pid w)) w }

/-- `clear_pending` and `ev_clear_pending`. -/
def clearPending (v : Watcher U) : State U S :=
  { s with queues := { s.queues with
      pend := s.queues.pend.clearPending v
      log := .cleared v :: s.queues.log } }.cleared v

def evChildStop (w : U) : State U S :=
  let s := s.clearPending (.child w)
  if s.childs.active w = 0 then s else { s with childs := s.childs.stop (e.chain (s.pid w)) w }

def setPriority (v : Watcher U) (pri : ℤ) : State U S :=
  { s with queues := { s.queues with pend := s.queues.pend.setPriority v pri } }

def evFeedEvent (v : Watcher U) (revents : Events) : State U S :=
  { s with queues := { s.queues with
      pend := s.queues.pend.evFeedEvent v revents
      log := .fed v revents :: s.queues.log } }

/-- The loop of `child_reap` comes to a watcher. -/
def reapOne (pid : ℤ) (status : S) (s : State U S) (w : U) : State U S :=
  if (s.pid w = pid ∨ s.pid w = 0) ∧ (!e.traced status || s.trace w) then
    let s := s.setPriority (.child w) maxpri
    let s := { s with rpid := Function.update s.rpid w pid, rstatus := Function.update s.rstatus w status }
    s.evFeedEvent (.child w) evChild
  else s

def childReap (chain pid : ℤ) (status : S) : State U S :=
  (s.childs.head (e.chain chain)).foldl (reapOne e pid status) s

/-- `childcb`, by what `waitpid` returns. -/
def childcb : Option (ℤ × S) → State U S
  | none => s
  | some (pid, status) =>
    let s := s.evFeedEvent childev evSignal
    let s := s.childReap e pid pid status
    if 1 < e.hashsize then s.childReap e 0 pid status else s

/-- The history of `childcb`: an entry for each watcher that the status is for. -/
def reaped : Option (ℤ × S) → State U S
  | none => s
  | some (pid, status) =>
    { s with ledger := fun w =>
        if s.Admits e pid status w then ⟨pid, status, [], 0, false⟩ :: s.ledger w else s.ledger w }

end State

/-! ### Runs -/

inductive Act (U S : Type)
  | evFeedEvent (v : Watcher U) (revents : Events)
  | evClearPending (v : Watcher U)
  | evSetPriority (v : Watcher U) (pri : ℤ)
  | evChildSet (w : U) (pid : ℤ) (trace : Bool)
  | evChildStart (w : U)
  | evChildStop (w : U)
  | invokePending
  | ret
  | tick
  | childcb (result : Option (ℤ × S))

/-- `ev_invoke_pending` takes an entry. -/
def popped (d : Pend.Dispatch (Watcher U)) : Option (Watcher U) :=
  if d.ctl = .test ∧ d.pend.pendingcnt d.pend.pendingpri ≠ 0 then
    some (d.pend.entry d.pend.pendingpri (d.pend.pendingcnt d.pend.pendingpri - 1)).w
  else none

/-- A step of `ev_invoke_pending` leads to `d`. -/
def ticked (d : Pend.Dispatch (Watcher U)) : State U S :=
  (popped s.queues).elim { s with queues := d } fun v =>
    { s with queues := d, childing := decide (v = childev) }.called v

/-- User code and the loop, and `ev_invoke_pending` as in `Pend.step`. Nobody but the loop has hold of `childev`, and
a watcher's priority and pid are set while it is not active nor pending. -/
def step : Act U S → Option (State U S)
  | .tick => (Pend.tick s.queues).map (ticked s)
  | .childcb result =>
    if s.childing then
      let s := (s.childcb e result).reaped e result
      some { s with queues := { s.queues with ctl := .test }, childing := false }
    else none
  | a =>
    if s.childing ∨ s.queues.ctl ≠ .user then none
    else
      match a with
      | .evFeedEvent v revents =>
        if v = .pendingW then none else some ((s.evFeedEvent v revents).fed v)
      | .evClearPending v => if v = childev then none else some (s.clearPending v)
      | .evSetPriority v pri =>
        if v ≠ childev ∧ s.queues.pend.pending v = 0 ∧ minpri ≤ pri ∧ pri ≤ maxpri then some (s.setPriority v pri)
        else none
      | .evChildSet w pid trace =>
        if s.childs.active w = 0 then
          some { s with pid := Function.update s.pid w pid, trace := Function.update s.trace w trace }
        else none
      | .evChildStart w => some (s.evChildStart e w)
      | .evChildStop w => some (s.evChildStop e w)
      | .invokePending => (Pend.call s.queues .invokePending).map fun d => { s with queues := d }
      | .ret => (Pend.call s.queues .ret).map fun d => { s with queues := d }
      | _ => none

abbrev Runs (s : State U S) (acts : List (Act U S)) (t : State U S) : Prop :=
  Run (fun s a t => step e s a = some t) s acts t

/-- A watcher has yet to be called with the status that was reaped for it last. -/
def Due (w : U) : Prop := ∃ x, (s.ledger w).head? = some x ∧ x.calls = [] ∧ x.cleared = false

/-! ### What a status is for -/

/-- The watchers that `child_reap` goes to, in its two calls. -/
def visited (pid : ℤ) : List U :=
  s.childs.head (e.chain pid) ++ if 1 < e.hashsize then s.childs.head (e.chain 0) else []

/-- Whether one of them is fed. -/
def Matches (pid : ℤ) (status : S) (w : U) : Prop :=
  (s.pid w = pid ∨ s.pid w = 0) ∧ (!e.traced status || s.trace w) = true

instance (pid : ℤ) (status : S) (w : U) : Decidable (Matches e s pid status w) :=
  inferInstanceAs (Decidable (_ ∧ _))

section

variable {e s} {t : State U S} {pid : ℤ} {status : S} {w : U} {v : Watcher U}

theorem marks_eq (v : Watcher U) (f : Entry S → Entry S) : s.marks v f =
    { s with ledger := fun w => if v = .child w then (s.ledger w).modifyHead f else s.ledger w } := by
  cases v with
  | child w =>
    show s.mark w f = _
    unfold State.mark
    congr 1
    funext w'
    rw [Function.update_apply]
    by_cases h : w' = w
    · rw [if_pos h, if_pos (by rw [h]), h]
    · rw [if_neg h, if_neg fun hc => h (Watcher.child.inj hc).symm]
  | _ => rfl

theorem called_eq (v : Watcher U) : s.called v =
    { s with
      ledger := fun w =>
        if v = .child w then (s.ledger w).modifyHead fun x => { x with calls := (s.rpid w, s.rstatus w) :: x.calls }
        else s.ledger w } := by
  cases v with
  | child w =>
    show s.mark w _ = _
    unfold State.mark
    congr 1
    funext w'
    rw [Function.update_apply]
    by_cases h : w' = w
    · rw [if_pos h, if_pos (by rw [h]), h]
    · rw [if_neg h, if_neg fun hc => h (Watcher.child.inj hc).symm]
  | _ => rfl

theorem chain_lt (pid : ℤ) : e.chain pid < e.hashsize := by
  have hpos : (0 : ℤ) < e.hashsize := Int.natCast_pos.mpr e.pos
  have h₁ := Int.emod_nonneg pid hpos.ne'
  have h₂ := Int.emod_lt_of_pos pid hpos
  unfold Env.chain
  omega

section

omit [DecidableEq U]

theorem admits_congr (hchilds : t.childs = s.childs) (hpid : t.pid = s.pid) (htrace : t.trace = s.trace) (pid : ℤ)
    (status : S) (w : U) : t.Admits e pid status w ↔ s.Admits e pid status w := by
  unfold State.Admits
  rw [hchilds, hpid, htrace]

/-- The two lists have every watcher that the status is for, and `child_reap` feeds just these. -/
theorem visited_admits (h : s.childs.Linked fun w => e.chain (s.pid w)) :
    (w ∈ visited e s pid ∧ Matches e s pid status w) ↔ s.Admits e pid status w := by
  have hmem : ∀ k, w ∈ s.childs.head k ↔ s.childs.active w ≠ 0 ∧ e.chain (s.pid w) = k := fun k => h.mem k w
  have htrace : ((!e.traced status || s.trace w) = true) ↔ (e.traced status = true → s.trace w = true) := by
    cases e.traced status <;> simp
  unfold visited Matches State.Admits
  rw [htrace, List.mem_append]
  refine ⟨fun hw => ⟨?_, hw.2⟩, fun hw => ⟨?_, hw.2⟩⟩
  · rcases hw.1 with hm | hm
    · exact ((hmem _).mp hm).1
    · split at hm
      · exact ((hmem _).mp hm).1
      · cases hm
  · obtain ⟨hact, hpid | hpid, -⟩ := hw
    · exact .inl ((hmem _).mpr ⟨hact, by rw [hpid]⟩)
    · split
      · exact .inr ((hmem _).mpr ⟨hact, by rw [hpid]⟩)
      · rename_i hsize
        have hpos := e.pos
        have h₁ := chain_lt (e := e) pid
        have h₂ := chain_lt (e := e) (s.pid w)
        exact .inl ((hmem _).mpr ⟨hact, by omega⟩)

end

/-! ### childcb -/

/-- `child_reap` has come from `s` to `t`, past the watchers of a list. -/
structure Reaping (e : Env S) (pid : ℤ) (status : S) (ws : List U) (s t : State U S) : Prop where
  childs : t.childs = s.childs
  pids : t.pid = s.pid
  traces : t.trace = s.trace
  ledger : t.ledger = s.ledger
  ctl : t.queues.ctl = s.queues.ctl
  depth : t.queues.depth = s.queues.depth
  queues : Pend.Inv t.queues
  dummy : t.queues.pend.pendingW = s.queues.pend.pendingW
  top : t.queues.pend.priority childev = s.queues.pend.priority childev
  below : t.queues.pend.pending childev = s.queues.pend.pending childev
  fed : ∀ w ∈ ws, Matches e s pid status w → t.queues.pend.pending childev < t.queues.pend.pending (.child w) ∧
    t.queues.pend.priority (.child w) = maxpri ∧ t.rpid w = pid ∧ t.rstatus w = status
  rest : ∀ w, ¬ (w ∈ ws ∧ Matches e s pid status w) →
    t.queues.pend.pending (.child w) = s.queues.pend.pending (.child w) ∧
    t.queues.pend.priority (.child w) = s.queues.pend.priority (.child w) ∧ t.rpid w = s.rpid w ∧
    t.rstatus w = s.rstatus w

theorem priority_feed (p : Pend (Watcher U)) (v : Watcher U) (revents : Events) :
    (p.evFeedEvent v revents).priority = p.priority := by
  unfold Pend.evFeedEvent
  dsimp only
  split
  · rfl
  · rfl

/-- A feed, when the queues are as they should be. -/
theorem inv_feed {d : Pend.Dispatch (Watcher U)} (h : Pend.Inv d) (hu : d.ctl = .user) (hv : v ≠ d.pend.pendingW)
    (revents : Events) :
    Pend.Inv { d with pend := d.pend.evFeedEvent v revents, log := .fed v revents :: d.log } :=
  Pend.inv_call h hu (a := .feedEvent v revents) (if_neg hv)

/-- The priority of a watcher that is pending already may only stay what it is. -/
theorem inv_setPriority {d : Pend.Dispatch (Watcher U)} (h : Pend.Inv d) (hu : d.ctl = .user) {pri : ℤ}
    (hp : d.pend.pending v = 0 ∨ d.pend.priority v = pri) (hr : minpri ≤ pri ∧ pri ≤ maxpri) :
    Pend.Inv { d with pend := d.pend.setPriority v pri } := by
  rcases hp with hp | hp
  · exact Pend.inv_call h hu (a := .setPriority v pri) (if_pos ⟨hp, hr⟩)
  · unfold Pend.setPriority
    rw [← hp, Function.update_eq_self]
    exact h

theorem Reaping.reapOne {ws : List U} (h : Reaping e pid status ws s t) (hu : s.queues.ctl = .user)
    (hdummy : s.queues.pend.pendingW = .pendingW) (htop : s.queues.pend.priority childev = maxpri)
    (hc : s.queues.pend.pending childev ≠ 0)
    (hw : Matches e s pid status w → s.queues.pend.pending (.child w) = 0) :
    Reaping e pid status (ws ++ [w]) s (t.reapOne e pid status w) := by
  unfold State.reapOne
  rw [h.pids, h.traces]
  split
  · rename_i hm
    have hm : Matches e s pid status w := hm
    have hne : (childev : Watcher U) ≠ .child w := by simp
    obtain ⟨p, hp⟩ : ∃ p, t.queues.pend.setPriority (.child w) maxpri = p := ⟨_, rfl⟩
    have hpend : p.pending = t.queues.pend.pending := by rw [← hp]; rfl
    have hprio : p.priority = Function.update t.queues.pend.priority (.child w) maxpri := by rw [← hp]; rfl
    -- it is not pending, or fed by the first of the two calls
    have hold : t.queues.pend.pending (.child w) = 0 ∨
        t.queues.pend.pending childev < t.queues.pend.pending (.child w) ∧
          t.queues.pend.priority (.child w) = maxpri := by
      by_cases hin : w ∈ ws
      · obtain ⟨h₁, h₂, -⟩ := h.fed w hin hm
        exact .inr ⟨h₁, h₂⟩
      · exact .inl ((h.rest w fun hc => hin hc.1).1.trans (hw hm))
    have hset : Pend.Inv { t.queues with pend := p } := by
      rw [← hp]
      exact inv_setPriority h.queues (h.ctl.trans hu) (hold.imp_right And.right) (by decide)
    have hdummy' : p.pendingW = .pendingW := by rw [← hp]; exact h.dummy.trans hdummy
    have hfeed := inv_feed (v := .child w) hset (h.ctl.trans hu) (by rw [hdummy']; simp) evChild
    have hafter : ∀ v, (p.evFeedEvent (.child w) evChild).pending v =
        if v = .child w ∧ t.queues.pend.pending (.child w) = 0 then p.pendingcnt (p.abspri (.child w)) + 1
        else t.queues.pend.pending v := by
      intro v
      rw [Pend.pending_feed_eq, hpend]
    have hprio' : ∀ v, (p.evFeedEvent (.child w) evChild).priority v =
        if v = .child w then maxpri else t.queues.pend.priority v := by
      intro v
      rw [priority_feed, hprio, Function.update_apply]
    have hbelow : (p.evFeedEvent (.child w) evChild).pending childev = t.queues.pend.pending childev := by
      rw [hafter, if_neg fun hc => hne hc.1]
    have hrank : t.queues.pend.pending childev ≤ p.pendingcnt (p.abspri (.child w)) := by
      have habs : p.abspri (.child w) = p.abspri childev := by
        unfold Pend.abspri
        rw [hprio, Function.update_self, Function.update_of_ne hne, h.top, htop]
      have hheld := (hset.ok.held childev (by
        show p.pending childev ≠ 0
        rw [hpend, h.below]
        exact hc)).1
      rw [habs, ← hpend]
      exact hheld
    have hother : ∀ w', w' ≠ w → (p.evFeedEvent (.child w) evChild).pending (.child w') =
        t.queues.pend.pending (.child w') ∧ (p.evFeedEvent (.child w) evChild).priority (.child w') =
        t.queues.pend.priority (.child w') ∧ Function.update t.rpid w pid w' = t.rpid w' ∧
        Function.update t.rstatus w status w' = t.rstatus w' := by
      intro w' hww
      have hneq : Watcher.child w' ≠ .child w := fun hc => hww (Watcher.child.inj hc)
      exact ⟨by rw [hafter, if_neg fun hc => hneq hc.1], by rw [hprio', if_neg hneq], Function.update_of_ne hww ..,
        Function.update_of_ne hww ..⟩
    refine ⟨h.childs, h.pids, h.traces, h.ledger, h.ctl, h.depth, ?_, ?_, ?_, ?_, ?_, ?_⟩
    all_goals
      unfold State.evFeedEvent State.setPriority
      dsimp only
      rw [hp]
    · exact hfeed
    · rw [Pend.pendingW_feed, hdummy', hdummy]
    · rw [hprio', if_neg hne, h.top]
    · rw [hbelow, h.below]
    · intro w' hin hm'
      by_cases hww : w' = w
      · subst hww
        rw [hbelow, hafter, hprio', if_pos rfl, Function.update_self, Function.update_self]
        refine ⟨?_, rfl, rfl, rfl⟩
        split
        · exact Nat.lt_succ_of_le hrank
        · rename_i hno
          exact (hold.resolve_left fun hz => hno ⟨rfl, hz⟩).1
      · obtain ⟨h₁, h₂, h₃, h₄⟩ := hother w' hww
        rw [h₁, h₂, h₃, h₄, hbelow]
        exact h.fed w' ((List.mem_append.mp hin).resolve_right fun hc => hww (List.mem_singleton.mp hc)) hm'
    · intro w' hno
      have hww : w' ≠ w := by
        rintro rfl
        exact hno ⟨List.mem_append_right _ List.mem_cons_self, hm⟩
      obtain ⟨h₁, h₂, h₃, h₄⟩ := hother w' hww
      rw [h₁, h₂, h₃, h₄]
      exact h.rest w' fun hc => hno ⟨List.mem_append_left _ hc.1, hc.2⟩
  · rename_i hm
    have hm : ¬ Matches e s pid status w := hm
    refine ⟨h.childs, h.pids, h.traces, h.ledger, h.ctl, h.depth, h.queues, h.dummy, h.top, h.below,
      fun w' hin hm' => h.fed w' ?_ hm', fun w' hno => h.rest w' fun hc => hno ⟨List.mem_append_left _ hc.1, hc.2⟩⟩
    refine (List.mem_append.mp hin).resolve_right fun hc => ?_
    rw [List.mem_singleton.mp hc] at hm'
    exact hm hm'

theorem Reaping.foldl {ws : List U} (h : Reaping e pid status ws s t) (hu : s.queues.ctl = .user)
    (hdummy : s.queues.pend.pendingW = .pendingW) (htop : s.queues.pend.priority childev = maxpri)
    (hc : s.queues.pend.pending childev ≠ 0) (l : List U)
    (hl : ∀ w ∈ l, Matches e s pid status w → s.queues.pend.pending (.child w) = 0) :
    Reaping e pid status (ws ++ l) s (l.foldl (State.reapOne e pid status) t) := by
  induction l generalizing ws t with
  | nil => exact (List.append_nil ws).symm ▸ h
  | cons w l ih =>
    have hone := h.reapOne hu hdummy htop hc (hl w List.mem_cons_self)
    have hrest := ih hone fun w' hw' => hl w' (List.mem_cons_of_mem _ hw')
    rw [List.append_assoc] at hrest
    exact hrest

theorem frame_reapOne (e : Env S) (pid : ℤ) (status : S) (s : State U S) (w : U) :
    (s.reapOne e pid status w).childs = s.childs ∧
    (s.reapOne e pid status w).pid = s.pid ∧ (s.reapOne e pid status w).trace = s.trace ∧
    (s.reapOne e pid status w).ledger = s.ledger := by
  unfold State.reapOne
  split
  · exact ⟨rfl, rfl, rfl, rfl⟩
  · exact ⟨rfl, rfl, rfl, rfl⟩

/-- `child_reap` starts and stops nothing. -/
theorem frame_reap (e : Env S) (pid : ℤ) (status : S) (s : State U S) (l : List U) :
    (l.foldl (State.reapOne e pid status) s).childs = s.childs ∧
    (l.foldl (State.reapOne e pid status) s).pid = s.pid ∧ (l.foldl (State.reapOne e pid status) s).trace = s.trace ∧
    (l.foldl (State.reapOne e pid status) s).ledger = s.ledger := by
  induction l generalizing s with
  | nil => exact ⟨rfl, rfl, rfl, rfl⟩
  | cons w l ih =>
    obtain ⟨h₁, h₂, h₃, h₄⟩ := frame_reapOne e pid status s w
    obtain ⟨g₁, g₂, g₃, g₄⟩ := ih (s.reapOne e pid status w)
    exact ⟨g₁.trans h₁, g₂.trans h₂, g₃.trans h₃, g₄.trans h₄⟩

theorem childcb_eq (s : State U S) (pid : ℤ) (status : S) : s.childcb e (some (pid, status)) =
    (visited e s pid).foldl (State.reapOne e pid status) (s.evFeedEvent childev evSignal) := by
  unfold visited
  rw [List.foldl_append]
  show (if 1 < e.hashsize then State.childReap e (State.childReap e _ pid pid status) 0 pid status
    else State.childReap e _ pid pid status) = _
  unfold State.childReap
  rw [(frame_reap e pid status _ _).1]
  split
  · rfl
  · rfl

theorem ledger_reaped (s : State U S) (pid : ℤ) (status : S) (w : U) :
    ((s.childcb e (some (pid, status))).reaped e (some (pid, status))).ledger w =
      if s.Admits e pid status w then ⟨pid, status, [], 0, false⟩ :: s.ledger w else s.ledger w := by
  obtain ⟨h₁, h₂, h₃, h₄⟩ := frame_reap e pid status (s.evFeedEvent childev evSignal) (visited e s pid)
  rw [childcb_eq]
  exact if_congr (admits_congr h₁ h₂ h₃ pid status w) (congrArg (_ :: · w) h₄) (congrFun h₄ w)

/-- What `childcb` does with a status: `childev` is fed, and above it each watcher that the status is for. -/
theorem reaping_childcb (pid : ℤ) (status : S) (h : Pend.Inv s.queues) (hu : s.queues.ctl = .user)
    (hdummy : s.queues.pend.pendingW = .pendingW) (htop : s.queues.pend.priority childev = maxpri)
    (hlinked : s.childs.Linked fun w => e.chain (s.pid w))
    (hno : ∀ w, s.Admits e pid status w → s.queues.pend.pending (.child w) = 0) :
    Reaping e pid status (visited e s pid) (s.evFeedEvent childev evSignal) (s.childcb e (some (pid, status))) := by
  have hne : ∀ w : U, Watcher.child w ≠ childev := fun w => by simp
  have hfed := inv_feed (v := childev) h hu (by rw [hdummy]; simp) evSignal
  have hstart : Reaping e pid status [] (s.evFeedEvent childev evSignal) (s.evFeedEvent childev evSignal) :=
    ⟨rfl, rfl, rfl, rfl, rfl, rfl, hfed, rfl, rfl, rfl, fun w hw => absurd hw List.not_mem_nil,
      fun w _ => ⟨rfl, rfl, rfl, rfl⟩⟩
  have hpending : (s.evFeedEvent childev evSignal).queues.pend.pending childev ≠ 0 :=
    (Pend.pending_feed ..).mpr (.inr rfl)
  rw [childcb_eq]
  refine hstart.foldl hu ?_ ?_ hpending _ fun w hw hm => ?_
  · exact (Pend.pendingW_feed ..).trans hdummy
  · show (s.queues.pend.evFeedEvent childev evSignal).priority childev = maxpri
    rw [priority_feed, htop]
  · show (s.queues.pend.evFeedEvent childev evSignal).pending (.child w) = 0
    rw [Pend.pending_feed_eq, if_neg fun hc => hne w hc.1]
    exact hno w ((visited_admits hlinked).mp ⟨hw, hm⟩)

end

end Child

end Qev
