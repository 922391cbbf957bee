/-
# Each status is seen

What is known of one watcher is `Good`: all of its statuses but the last were seen, and while it has yet to be called
with the last its entry is above that of `childev` in the queue of `EV_MAXPRI`. So none is left when `childcb` comes
to be called, and the next status may be written (`statuses_seen`), unless others than `child_reap` have fed a watcher
that the status is for, and it was pending when the status was reaped (`statuses_seen_fails`).
-/
import Qev.Loop.Child

namespace Qev

open Lib

namespace Child

variable {U S : Type} [DecidableEq U] {e : Env S} {s t : State U S}

/-! ### One watcher -/

/-- A ledger, with where `childev` and the watcher are pending, the watcher's priority, and what it is to be told. -/
structure Good (c n : ℕ) (pri : ℤ) (rpid : ℤ) (rstatus : S) (l : List (Entry S)) : Prop where
  due : ∀ x, l.head? = some x → x.calls = [] → x.cleared = false → c ≠ 0 ∧ c < n ∧ pri = maxpri
  last : ∀ x, l.head? = some x → rpid = x.pid ∧ rstatus = x.status
  told : ∀ x ∈ l, ∀ y ∈ x.calls, y = (x.pid, x.status)
  once : ∀ x, l.head? = some x → x.calls.length + (if n = 0 then 0 else 1) ≤ 1 + x.fed
  seen : ∀ x ∈ l.tail, x.Seen

section

variable {c c' n n' : ℕ} {pri pri' rpid : ℤ} {rstatus : S} {l : List (Entry S)}

theorem Good.nil : Good c n pri rpid rstatus [] := by
  refine ⟨fun x hx => ?_, fun x hx => ?_, fun x hx => ?_, fun x hx => ?_, fun x hx => ?_⟩
  all_goals cases hx

/-- `childev` may be taken while the watcher is not above it. -/
theorem Good.keep (h : Good c n pri rpid rstatus l) (hc : c ≠ 0 → c < n → pri = maxpri → c' = c)
    (hpri : n ≠ 0 → pri' = pri) : Good c' n pri' rpid rstatus l := by
  refine ⟨fun x hx hcalls hcl => ?_, h.last, h.told, h.once, h.seen⟩
  obtain ⟨h₁, h₂, h₃⟩ := h.due x hx hcalls hcl
  rw [hc h₁ h₂ h₃, hpri (by omega)]
  exact ⟨h₁, h₂, h₃⟩

/-- The last entry is changed in what it counts. -/
theorem Good.mark {f : Entry S → Entry S} (h : Good c n pri rpid rstatus l)
    (hf : ∀ x, (f x).pid = x.pid ∧ (f x).status = x.status)
    (hdue : ∀ x, l.head? = some x → (f x).calls = [] → (f x).cleared = false → c' ≠ 0 ∧ c' < n' ∧ pri' = maxpri)
    (htold : ∀ x, l.head? = some x → ∀ y ∈ (f x).calls, y ∈ x.calls ∨ y = (rpid, rstatus))
    (honce : ∀ x, l.head? = some x → (f x).calls.length + (if n' = 0 then 0 else 1) ≤ 1 + (f x).fed) :
    Good c' n' pri' rpid rstatus (l.modifyHead f) := by
  cases l with
  | nil => exact .nil
  | cons x l =>
    have hlast := h.last x rfl
    rw [List.modifyHead_cons]
    refine ⟨fun y hy => ?_, fun y hy => ?_, fun y hy => ?_, fun y hy => ?_, h.seen⟩
    · cases hy
      exact hdue x rfl
    · cases hy
      rw [(hf x).1, (hf x).2]
      exact hlast
    · rcases List.mem_cons.mp hy with rfl | hy
      · intro y hy
        rw [(hf x).1, (hf x).2]
        rcases htold x rfl y hy with hy | hy
        · exact h.told x List.mem_cons_self y hy
        · rw [hy, hlast.1, hlast.2]
      · exact h.told y (List.mem_cons_of_mem _ hy)
    · cases hy
      exact honce x rfl

theorem Good.fed (h : Good c n pri rpid rstatus l) (hn : n ≠ 0 → n' = n) :
    Good c n' pri rpid rstatus (l.modifyHead fun x => { x with fed := x.fed + 1 }) := by
  refine h.mark (fun _ => ⟨rfl, rfl⟩) (fun x hx hcalls hcl => ?_) (fun _ _ _ hy => .inl hy) fun x hx => ?_
  · obtain ⟨h₁, h₂, h₃⟩ := h.due x hx hcalls hcl
    rw [hn (by omega)]
    exact ⟨h₁, h₂, h₃⟩
  · have := h.once x hx
    dsimp only
    split
    · split at this
      · omega
      · omega
    · split at this
      · omega
      · omega

theorem Good.cleared (h : Good c n pri rpid rstatus l) : Good c' 0 pri' rpid rstatus
    (l.modifyHead fun x => { x with cleared := x.cleared || x.calls.isEmpty }) := by
  refine h.mark (fun _ => ⟨rfl, rfl⟩) (fun x hx hcalls hcl => ?_) (fun _ _ _ hy => .inl hy) fun x hx => ?_
  · dsimp only at hcalls hcl
    rw [hcalls, List.isEmpty_nil, Bool.or_true] at hcl
    cases hcl
  · have := h.once x hx
    dsimp only
    rw [if_pos rfl]
    omega

theorem Good.called (h : Good c n pri rpid rstatus l) (hn : n ≠ 0) : Good c' 0 pri' rpid rstatus
    (l.modifyHead fun x => { x with calls := (rpid, rstatus) :: x.calls }) := by
  refine h.mark (fun _ => ⟨rfl, rfl⟩) (fun x hx hcalls hcl => ?_) (fun x hx y hy => ?_) fun x hx => ?_
  · cases hcalls
  · exact (List.mem_cons.mp hy).symm
  · have := h.once x hx
    rw [if_neg hn] at this
    dsimp only
    rw [if_pos rfl, List.length_cons]
    omega

/-- A status that is not due any more was seen. -/
theorem Good.all_seen (h : Good c n pri rpid rstatus l) (hc : c = 0 ∨ n = 0) : ∀ x ∈ l, x.Seen := by
  cases l with
  | nil => exact fun x hx => absurd hx List.not_mem_nil
  | cons x l =>
    intro y hy
    rcases List.mem_cons.mp hy with rfl | hy
    · refine ⟨?_, h.told y List.mem_cons_self, by have := h.once y rfl; omega⟩
      by_contra hno
      rw [not_or, not_not] at hno
      have := h.due y rfl hno.2 (Bool.eq_false_iff.mpr hno.1)
      omega
    · exact h.seen y hy

theorem Good.reaped {pid : ℤ} {status : S} (h : Good 0 n pri rpid rstatus l) (hc : c' ≠ 0) (hn : c' < n') :
    Good c' n' maxpri pid status (⟨pid, status, [], 0, false⟩ :: l) := by
  refine ⟨fun x hx _ _ => ⟨hc, hn, rfl⟩, fun x hx => ?_, fun x hx => ?_, fun x hx => ?_, h.all_seen (.inl rfl)⟩
  · cases hx
    exact ⟨rfl, rfl⟩
  · rcases List.mem_cons.mp hx with rfl | hx
    · exact fun y hy => absurd hy List.not_mem_nil
    · exact h.told x hx
  · cases hx
    split
    · exact Nat.zero_le _
    · exact Nat.le_refl _

end

/-! ### The invariant -/

structure Inv (e : Env S) (s : State U S) : Prop where
  queues : Pend.Inv s.queues
  dummy : s.queues.pend.pendingW = .pendingW
  top : s.queues.pend.priority childev = maxpri
  linked : s.childs.Linked fun w => e.chain (s.pid w)
  childing : s.childing = true →
    s.queues.ctl = .user ∧ 0 < s.queues.depth ∧ s.queues.pend.pending childev = 0
  good : ∀ w, Good (s.queues.pend.pending childev) (s.queues.pend.pending (.child w))
    (s.queues.pend.priority (.child w)) (s.rpid w) (s.rstatus w) (s.ledger w)

theorem inv_init [Inhabited S] : Inv e (init : State U S) := by
  have hqueues : Pend.Inv (init : State U S).queues :=
    inv_setPriority (Pend.inv_init (W := Watcher U) .pendingW) rfl (.inl rfl) (by decide)
  refine ⟨hqueues, rfl, ?_, ⟨fun k w => ?_, fun k => .nil⟩, fun hc => (by cases hc), fun w => .nil⟩
  · show Function.update (fun _ : Watcher U => (0 : ℤ)) childev maxpri childev = maxpri
    rw [Function.update_self]
  · exact iff_of_false List.not_mem_nil fun hc => hc.1 rfl

section

variable {v : Watcher U} {w : U}

section

omit [DecidableEq U]

theorem child_ne_childev (w : U) : Watcher.child w ≠ childev := by simp

end

theorem Inv.evFeedEvent (h : Inv e s) (hquiet : s.childing = false) (hu : s.queues.ctl = .user) (hv : v ≠ .pendingW)
    (revents : Events) : Inv e ((s.evFeedEvent v revents).fed v) := by
  have hpend : ∀ v', v' ≠ v ∨ s.queues.pend.pending v' ≠ 0 →
      (s.queues.pend.evFeedEvent v revents).pending v' = s.queues.pend.pending v' := by
    intro v' hor
    rw [Pend.pending_feed_eq, if_neg]
    rintro ⟨rfl, hz⟩
    exact hor.elim (fun hne => hne rfl) fun hne => hne hz
  have hprio := priority_feed s.queues.pend v revents
  unfold State.fed
  rw [marks_eq]
  refine ⟨inv_feed h.queues hu (by rw [h.dummy]; exact hv) revents, (Pend.pendingW_feed ..).trans h.dummy, ?_,
    h.linked, fun hc => ?_, fun w => ?_⟩
  · show (s.queues.pend.evFeedEvent v revents).priority childev = maxpri
    rw [hprio]
    exact h.top
  · rw [show s.childing = true from hc] at hquiet
    cases hquiet
  · show Good ((s.queues.pend.evFeedEvent v revents).pending childev)
      ((s.queues.pend.evFeedEvent v revents).pending (.child w))
      ((s.queues.pend.evFeedEvent v revents).priority (.child w)) (s.rpid w) (s.rstatus w)
      (if v = .child w then (s.ledger w).modifyHead _ else s.ledger w)
    rw [hprio]
    by_cases hvw : v = .child w
    · rw [if_pos hvw, hpend childev (.inl fun hc => child_ne_childev w (hc.trans hvw).symm)]
      exact (h.good w).fed fun hne => hpend _ (.inr hne)
    · rw [if_neg hvw, hpend _ (.inl fun hc => hvw hc.symm)]
      exact (h.good w).keep (fun hc _ _ => hpend _ (.inr hc)) fun _ => rfl

theorem Inv.clearPending (h : Inv e s) (hquiet : s.childing = false) (hu : s.queues.ctl = .user) (hv : v ≠ childev) :
    Inv e (s.clearPending v) := by
  have hprio : (s.queues.pend.clearPending v).priority = s.queues.pend.priority := by
    unfold Pend.clearPending
    split
    · rfl
    · rfl
  unfold State.clearPending State.cleared
  rw [marks_eq]
  refine ⟨h.queues.cleared hu v, (Pend.pendingW_clear ..).trans h.dummy, ?_, h.linked, fun hc => ?_, fun w => ?_⟩
  · show (s.queues.pend.clearPending v).priority childev = maxpri
    rw [hprio]
    exact h.top
  · rw [show s.childing = true from hc] at hquiet
    cases hquiet
  · show Good ((s.queues.pend.clearPending v).pending childev) ((s.queues.pend.clearPending v).pending (.child w))
      ((s.queues.pend.clearPending v).priority (.child w)) (s.rpid w) (s.rstatus w)
      (if v = .child w then (s.ledger w).modifyHead _ else s.ledger w)
    rw [hprio, Pend.pending_clear, Pend.pending_clear, if_neg hv.symm]
    by_cases hvw : v = .child w
    · rw [if_pos hvw, if_pos hvw.symm]
      exact (h.good w).cleared
    · rw [if_neg hvw, if_neg fun hc => hvw hc.symm]
      exact h.good w

theorem Inv.setPriority (h : Inv e s) (hquiet : s.childing = false) (hu : s.queues.ctl = .user) (hv : v ≠ childev)
    (hp : s.queues.pend.pending v = 0) {pri : ℤ} (hr : minpri ≤ pri ∧ pri ≤ maxpri) :
    Inv e (s.setPriority v pri) := by
  refine ⟨inv_setPriority h.queues hu (.inl hp) hr, h.dummy, (Function.update_of_ne hv.symm ..).trans h.top,
    h.linked, fun hc => ?_, fun w => (h.good w).keep (fun _ _ _ => rfl) fun hne => ?_⟩
  · rw [show s.childing = true from hc] at hquiet
    cases hquiet
  · have hvw : Watcher.child w ≠ v := by
      rintro rfl
      exact hne hp
    exact Function.update_of_ne hvw ..

/-- A change of what is active. -/
theorem Inv.lists {childs : Lists U} {pid : U → ℤ} {trace : U → Bool} (h : Inv e s)
    (hl : childs.Linked fun w => e.chain (pid w)) : Inv e { s with childs := childs, pid := pid, trace := trace } :=
  ⟨h.queues, h.dummy, h.top, hl, h.childing, h.good⟩

theorem Inv.evChildSet (h : Inv e s) (hw : s.childs.active w = 0) (pid : ℤ) (trace : Bool) :
    Inv e { s with pid := Function.update s.pid w pid, trace := Function.update s.trace w trace } := by
  refine h.lists ⟨fun k v => ?_, h.linked.nodup⟩
  by_cases hv : v = w
  · have hmem := h.linked.mem k v
    rw [hv] at hmem ⊢
    exact iff_of_false (fun hc => (hmem.mp hc).1 hw) fun hc => hc.1 hw
  · rw [Function.update_of_ne hv]
    exact h.linked.mem k v

theorem Inv.evChildStart (h : Inv e s) (w : U) : Inv e (s.evChildStart e w) := by
  unfold State.evChildStart
  split
  · exact h
  · rename_i hw
    rw [h.queues.ok.range.priAdjust]
    exact h.lists (h.linked.start (not_not.mp hw))

theorem Inv.evChildStop (h : Inv e s) (hquiet : s.childing = false) (hu : s.queues.ctl = .user) (w : U) :
    Inv e (s.evChildStop e w) := by
  have hclear := h.clearPending hquiet hu (child_ne_childev w)
  unfold State.evChildStop
  dsimp only
  split
  · exact hclear
  · exact hclear.lists (hclear.linked.stop w)

/-- Nothing but the control of `ev_invoke_pending` changes. -/
theorem Inv.control {d : Pend.Dispatch (Watcher U)} (h : Inv e s) (hquiet : s.childing = false) (hd : Pend.Inv d)
    (hW : d.pend.pendingW = s.queues.pend.pendingW) (hpend : d.pend.pending = s.queues.pend.pending)
    (hprio : d.pend.priority = s.queues.pend.priority) : Inv e { s with queues := d } := by
  refine ⟨hd, hW.trans h.dummy, ?_, h.linked, fun hc => ?_, fun w => ?_⟩
  · show d.pend.priority childev = maxpri
    rw [hprio]
    exact h.top
  · rw [show s.childing = true from hc] at hquiet
    cases hquiet
  · show Good (d.pend.pending childev) (d.pend.pending (.child w)) (d.pend.priority (.child w)) _ _ _
    rw [hpend, hprio]
    exact h.good w

/-- An entry above that of `childev` is not left when `childev` is taken. -/
theorem Inv.top_last (h : Inv e s) {i : ℕ} (hcnt : s.queues.pend.pendingcnt s.queues.pend.pendingpri = i + 1)
    (hv : (s.queues.pend.entry s.queues.pend.pendingpri i).w = childev) (w : U)
    (hpri : s.queues.pend.priority (.child w) = maxpri) :
    s.queues.pend.pending (.child w) ≤ s.queues.pend.pending childev := by
  obtain ⟨hq, hpending⟩ := h.queues.ok.live s.queues.pend.pendingpri i (by omega) (by rw [hv, h.dummy]; simp)
  rw [hv] at hq hpending
  by_cases hz : s.queues.pend.pending (.child w) = 0
  · omega
  · have hle := (h.queues.ok.held (.child w) hz).1
    have habs : s.queues.pend.abspri (.child w) = s.queues.pend.pendingpri := by
      rw [hq]
      unfold Pend.abspri
      rw [hpri, h.top]
    rw [habs, hcnt] at hle
    omega

theorem Inv.tick {d : Pend.Dispatch (Watcher U)} (h : Inv e s) (hs : Pend.tick s.queues = some d) :
    Inv e (ticked s d) := by
  have hd := Pend.inv_tick h.queues hs
  have hquiet : s.queues.ctl ≠ .user → s.childing = false := fun hu =>
    Bool.eq_false_iff.mpr fun hc => hu (h.childing hc).1
  rcases Pend.tick_cases hs with ⟨hctl, rfl⟩ | ⟨hctl, i, hcnt, rfl⟩ | ⟨hctl, hcnt, -, rfl⟩ | ⟨hctl, hcnt, -, rfl⟩
  · have hno : popped s.queues = none := if_neg fun hc => by rw [hctl] at hc; cases hc.1
    unfold ticked
    rw [hno]
    exact h.control (hquiet (by rw [hctl]; simp)) hd rfl rfl rfl
  · obtain ⟨v, hv⟩ : ∃ v, (s.queues.pend.entry s.queues.pend.pendingpri i).w = v := ⟨_, rfl⟩
    have hpop : popped s.queues = some v := by
      unfold popped
      rw [if_pos ⟨hctl, by omega⟩, hcnt, Nat.add_sub_cancel, hv]
    have hpend : ∀ x, (s.queues.pend.pop s.queues.pend.pendingpri).pending x =
        if x = v then 0 else s.queues.pend.pending x := by
      intro x
      show Function.update s.queues.pend.pending (s.queues.pend.entry s.queues.pend.pendingpri
        (s.queues.pend.pendingcnt s.queues.pend.pendingpri - 1)).w 0 x = _
      rw [hcnt, Nat.add_sub_cancel, hv, Function.update_apply]
    unfold ticked
    rw [hpop]
    dsimp only [Option.elim]
    rw [called_eq]
    refine ⟨hd, h.dummy, h.top, h.linked, fun hc => ⟨rfl, h.queues.deep (by rw [hctl]; simp), ?_⟩, fun w => ?_⟩
    · have hv' : v = childev := of_decide_eq_true hc
      exact (hpend childev).trans (if_pos hv'.symm)
    · show Good ((s.queues.pend.pop s.queues.pend.pendingpri).pending childev)
        ((s.queues.pend.pop s.queues.pend.pendingpri).pending (.child w)) (s.queues.pend.priority (.child w))
        (s.rpid w) (s.rstatus w) (if v = .child w then (s.ledger w).modifyHead _ else s.ledger w)
      rw [hpend, hpend]
      by_cases hvw : v = .child w
      · obtain ⟨-, hpending⟩ := h.queues.ok.live s.queues.pend.pendingpri i (by omega)
          (by rw [hv, hvw, h.dummy]; simp)
        rw [hv, hvw] at hpending
        rw [if_pos hvw, if_pos hvw.symm]
        exact (h.good w).called (by omega)
      · rw [if_neg hvw, if_neg (Ne.symm hvw)]
        refine (h.good w).keep (fun _ hlt hpri => if_neg ?_) fun _ => rfl
        rintro rfl
        exact absurd (h.top_last hcnt hv w hpri) (not_le.mpr hlt)
  · have hno : popped s.queues = none := if_neg fun hc => hc.2 hcnt
    unfold ticked
    rw [hno]
    exact h.control (hquiet (by rw [hctl]; simp)) hd rfl rfl rfl
  · have hno : popped s.queues = none := if_neg fun hc => hc.2 hcnt
    unfold ticked
    rw [hno]
    exact h.control (hquiet (by rw [hctl]; simp)) hd rfl rfl rfl

/-! ### A status is reaped -/

/-- A status is for a watcher that others than `child_reap` have fed, and that is pending. -/
def Stray (e : Env S) (s : State U S) : Act U S → Prop
  | .childcb (some (pid, status)) =>
    ∃ w, s.Admits e pid status w ∧ s.queues.pend.pending (.child w) ≠ 0 ∧ ¬ Due s w
  | _ => False

/-- `childcb` returns to `ev_invoke_pending`. -/
theorem inv_ret {d : Pend.Dispatch (Watcher U)} (h : Pend.Inv d) (hu : d.ctl = .user) (hd : 0 < d.depth) :
    Pend.Inv { d with ctl := .test } :=
  Pend.inv_call h hu (a := .ret) (if_neg hd.ne')

theorem Inv.childcb (h : Inv e s) (hc : s.childing = true) (result : Option (ℤ × S))
    (hs : ¬ Stray e s (.childcb result)) :
    Inv e { (s.childcb e result).reaped e result with
      queues := { ((s.childcb e result).reaped e result).queues with ctl := .test }
      childing := false } := by
  obtain ⟨hu, hdepth, hpending⟩ := h.childing hc
  cases result with
  | none =>
    exact ⟨inv_ret h.queues hu hdepth, h.dummy, h.top, h.linked, fun hc => (by cases hc), h.good⟩
  | some r =>
    obtain ⟨pid, status⟩ := r
    have hnone : ∀ w, s.Admits e pid status w → s.queues.pend.pending (.child w) = 0 := by
      intro w hw
      by_contra hne
      refine hs ⟨w, hw, hne, fun hdue => ?_⟩
      obtain ⟨x, hx, hcalls, hcl⟩ := hdue
      exact ((h.good w).due x hx hcalls hcl).1 hpending
    have hr := reaping_childcb pid status h.queues hu h.dummy h.top h.linked hnone
    have hne : ∀ w : U, Watcher.child w ≠ childev := child_ne_childev
    obtain ⟨t, ht⟩ : ∃ t, s.childcb e (some (pid, status)) = t := ⟨_, rfl⟩
    rw [ht] at hr ⊢
    have hadmits : ∀ w, t.Admits e pid status w ↔ s.Admits e pid status w :=
      admits_congr (s := s) hr.childs hr.pids hr.traces pid status
    have hpos : t.queues.pend.pending childev ≠ 0 := by
      rw [hr.below]
      exact (Pend.pending_feed ..).mpr (.inr rfl)
    refine ⟨inv_ret hr.queues (hr.ctl.trans hu) (hdepth.trans_eq hr.depth.symm), ?_, ?_, ?_,
      fun hc => (by cases hc), fun w => ?_⟩
    · exact hr.dummy.trans ((Pend.pendingW_feed ..).trans h.dummy)
    · show t.queues.pend.priority childev = maxpri
      rw [hr.top]
      show (s.queues.pend.evFeedEvent childev evSignal).priority childev = maxpri
      rw [priority_feed, h.top]
    · show t.childs.Linked fun w => e.chain (t.pid w)
      rw [hr.childs, hr.pids]
      exact h.linked
    · have hgood := h.good w
      rw [hpending] at hgood
      show Good (t.queues.pend.pending childev) (t.queues.pend.pending (.child w))
        (t.queues.pend.priority (.child w)) (t.rpid w) (t.rstatus w) (if t.Admits e pid status w then _ :: t.ledger w else t.ledger w)
      rw [hr.ledger]
      by_cases hw : s.Admits e pid status w
      · rw [if_pos ((hadmits w).mpr hw)]
        have hv := (visited_admits h.linked).mpr hw
        obtain ⟨h₁, h₂, h₃, h₄⟩ := hr.fed w hv.1 hv.2
        rw [h₂, h₃, h₄]
        exact hgood.reaped hpos h₁
      · rw [if_neg fun hc => hw ((hadmits w).mp hc)]
        obtain ⟨h₁, h₂, h₃, h₄⟩ := hr.rest w fun hc => hw ((visited_admits h.linked).mp hc)
        rw [h₁, h₂, h₃, h₄]
        show Good _ ((s.queues.pend.evFeedEvent childev evSignal).pending (.child w))
          ((s.queues.pend.evFeedEvent childev evSignal).priority (.child w)) (s.rpid w) (s.rstatus w) (s.ledger w)
        rw [priority_feed, Pend.pending_feed_eq, if_neg fun hc => hne w hc.1]
        exact hgood.keep (fun hc _ _ => absurd rfl hc) fun _ => rfl

/-! ### Runs -/

theorem inv_step {a : Act U S} (h : Inv e s) (hs : step e s a = some t) (hno : ¬ Stray e s a) : Inv e t := by
  cases a with
  | tick =>
    obtain ⟨d, hd, rfl⟩ := Option.map_eq_some_iff.mp hs
    exact h.tick hd
  | childcb result =>
    rw [step, Option.ite_none_right_eq_some] at hs
    cases hs.2
    exact h.childcb hs.1 result hno
  | evFeedEvent v revents =>
    rw [step, Option.ite_none_left_eq_some, not_or, not_not, Bool.not_eq_true] at hs
    obtain ⟨⟨hquiet, hu⟩, hs⟩ := hs
    rw [Option.ite_none_left_eq_some] at hs
    cases hs.2
    exact h.evFeedEvent hquiet hu hs.1 revents
  | evClearPending v =>
    rw [step, Option.ite_none_left_eq_some, not_or, not_not, Bool.not_eq_true] at hs
    obtain ⟨⟨hquiet, hu⟩, hs⟩ := hs
    rw [Option.ite_none_left_eq_some] at hs
    cases hs.2
    exact h.clearPending hquiet hu hs.1
  | evSetPriority v pri =>
    rw [step, Option.ite_none_left_eq_some, not_or, not_not, Bool.not_eq_true] at hs
    obtain ⟨⟨hquiet, hu⟩, hs⟩ := hs
    rw [Option.ite_none_right_eq_some] at hs
    obtain ⟨⟨hv, hp, hr⟩, hs⟩ := hs
    cases hs
    exact h.setPriority hquiet hu hv hp hr
  | evChildSet w pid trace =>
    rw [step, Option.ite_none_left_eq_some] at hs
    have hs := hs.2
    rw [Option.ite_none_right_eq_some] at hs
    cases hs.2
    exact h.evChildSet hs.1 pid trace
  | evChildStart w =>
    rw [step, Option.ite_none_left_eq_some] at hs
    cases hs.2
    exact h.evChildStart w
  | evChildStop w =>
    rw [step, Option.ite_none_left_eq_some, not_or, not_not, Bool.not_eq_true] at hs
    obtain ⟨⟨hquiet, hu⟩, hs⟩ := hs
    cases hs
    exact h.evChildStop hquiet hu w
  | invokePending =>
    rw [step, Option.ite_none_left_eq_some, not_or, not_not, Bool.not_eq_true] at hs
    obtain ⟨⟨hquiet, hu⟩, hs⟩ := hs
    obtain ⟨d, hd, rfl⟩ := Option.map_eq_some_iff.mp hs
    have hinv := Pend.inv_call h.queues hu hd
    cases hd
    exact h.control hquiet hinv rfl rfl rfl
  | ret =>
    rw [step, Option.ite_none_left_eq_some, not_or, not_not, Bool.not_eq_true] at hs
    obtain ⟨⟨hquiet, hu⟩, hs⟩ := hs
    obtain ⟨d, hd, rfl⟩ := Option.map_eq_some_iff.mp hs
    have hinv := Pend.inv_call h.queues hu hd
    unfold Pend.call at hd
    dsimp only at hd
    rw [Option.ite_none_left_eq_some] at hd
    cases hd.2
    exact h.control hquiet hinv rfl rfl rfl

/-- Nothing is pending once `ev_invoke_pending` has returned. -/
theorem tick_return {d d' : Pend.Dispatch (Watcher U)} (h : Pend.Inv d) (hs : Pend.tick d = some d')
    (hdepth : d'.depth < d.depth) (v : Watcher U) : d'.pend.pending v = 0 := by
  rcases Pend.tick_cases hs with ⟨-, rfl⟩ | ⟨-, i, -, rfl⟩ | ⟨-, -, -, rfl⟩ | ⟨hctl, hcnt, hpri, rfl⟩
  · exact absurd hdepth (lt_irrefl _)
  · exact absurd hdepth (lt_irrefl _)
  · exact absurd hdepth (lt_irrefl _)
  · by_contra hne
    have hle := (h.ok.held v hne).1
    have habove := h.test hctl (d.pend.abspri v)
    rw [hpri] at habove hcnt
    rcases Nat.eq_zero_or_pos (d.pend.abspri v) with hz | hpos
    · rw [hz, hcnt] at hle
      exact hne (Nat.le_zero.mp hle)
    · rw [habove hpos] at hle
      exact hne (Nat.le_zero.mp hle)

theorem queues_ticked (d : Pend.Dispatch (Watcher U)) : (ticked s d).queues = d := by
  unfold ticked
  cases popped s.queues with
  | none => rfl
  | some v =>
    dsimp only [Option.elim]
    rw [called_eq]

theorem inv_run [Inhabited S] {acts : List (Act U S)} (hrun : Runs e init acts s)
    (hno : ∀ past a later, acts = past ++ a :: later → ∀ u, Runs e init past u → ¬ Stray e u a) : Inv e s :=
  Run.guarded (I := fun _ s => Inv e s) (G := fun _ s a => ¬ Stray e s a)
    (fun _ _ _ _ _ h hg hs => inv_step h hs hg) inv_init hno hrun

/-- **Each status is seen before another is reaped for the watcher**, in every run in which no status is reaped for a
watcher that is pending because others than `child_reap` have fed it. The last one is seen or the watcher is still to
be called with it, and it is seen once `ev_invoke_pending` has returned. -/
theorem statuses_seen [Inhabited S] {acts : List (Act U S)} (hrun : Runs e init acts s)
    (hno : ∀ past a later, acts = past ++ a :: later → ∀ u, Runs e init past u → ¬ Stray e u a) :
    (∀ w, ∀ x ∈ (s.ledger w).tail, x.Seen) ∧
    (∀ w x, (s.ledger w).head? = some x →
      x.Seen ∨ s.queues.pend.pending (.child w) ≠ 0 ∧ s.rpid w = x.pid ∧ s.rstatus w = x.status) ∧
    (∀ t, step e s .tick = some t → t.queues.depth < s.queues.depth → ∀ w, ∀ x ∈ t.ledger w, x.Seen) ∧
    ∀ t pid status, step e s (.childcb (some (pid, status))) = some t → ¬ Stray e s (.childcb (some (pid, status))) →
      ∀ w, (t.queues.pend.pending (.child w) ≠ 0 ∧ t.ledger w = ⟨pid, status, [], 0, false⟩ :: s.ledger w ↔
        s.Admits e pid status w) := by
  have h := inv_run hrun hno
  refine ⟨fun w => (h.good w).seen, fun w x hx => ?_, fun t ht hd w => ?_, fun t pid status ht hstray w => ?_⟩
  · by_cases hp : s.queues.pend.pending (.child w) = 0
    · exact .inl ((h.good w).all_seen (.inr hp) x (List.mem_of_mem_head? hx))
    · exact .inr ⟨hp, (h.good w).last x hx⟩
  · have hinv := inv_step h ht (fun hc => hc)
    obtain ⟨d, hd', rfl⟩ := Option.map_eq_some_iff.mp ht
    rw [queues_ticked] at hd
    refine (hinv.good w).all_seen (.inr ?_)
    rw [queues_ticked]
    exact tick_return h.queues hd' hd _
  · have hinv := inv_step h ht hstray
    have hledger : t.ledger w =
        if s.Admits e pid status w then ⟨pid, status, [], 0, false⟩ :: s.ledger w else s.ledger w := by
      rw [step, Option.ite_none_right_eq_some] at ht
      cases ht.2
      exact ledger_reaped s pid status w
    by_cases hw : s.Admits e pid status w
    · rw [if_pos hw] at hledger
      refine iff_of_true ⟨?_, hledger⟩ hw
      have hdue := (hinv.good w).due _ (by rw [hledger]; rfl) rfl rfl
      omega
    · rw [if_neg hw] at hledger
      refine iff_of_false (fun hc => ?_) hw
      exact absurd (hledger.symm.trans hc.2).symm (List.cons_ne_self _ _)

end

/-- `EV_PID_HASHSIZE` as it is, and the macros of Linux. -/
def linux : Env ℕ := ⟨16, by decide, fun status => status % 256 = 127 || status = 65535⟩

/-- A watcher is started for a pid, `SIGCHLD` comes, and the process is continued and then exits. -/
def acts7 : List (Act Bool ℕ) :=
  [.evChildSet true 7 true, .evChildStart true, .evFeedEvent childev evSignal, .invokePending, .tick, .tick,
    .childcb (some (7, 65535)), .tick, .ret, .tick, .childcb (some (7, 0)), .tick, .ret, .tick, .childcb none]

/-- No child watcher is pending when a status is reaped. -/
def quiet (s : State Bool ℕ) : Act Bool ℕ → Bool
  | .childcb _ => decide (∀ w, s.queues.pend.pending (.child w) = 0)
  | _ => true

theorem statuses_seen_twice : ∃ s, Runs linux (init : State Bool ℕ) acts7 s ∧
    (s.ledger true).map Entry.calls = [[(7, 0)], [(7, 65535)]] ∧ ∀ x ∈ (s.ledger true).tail, x.Seen := by
  obtain ⟨s, hs⟩ : ∃ s, execFrom (step linux) (init : State Bool ℕ) acts7 = some s := ⟨_, rfl⟩
  have hrun : Runs linux init acts7 s := Run.iff_execFrom.mpr hs
  have hcalls : (s.ledger true).map Entry.calls = [[(7, 0)], [(7, 65535)]] := by
    cases hs
    decide
  refine ⟨s, hrun, hcalls, (statuses_seen hrun fun past a later hl u hu hstray => ?_).1 true⟩
  have hq : quiet u a = true :=
    Run.of_checks (G := quiet) (s := init) (l := acts7) (by decide) past a later hl u hu
  cases a with
  | childcb result =>
    cases result with
    | none => exact hstray
    | some r =>
      obtain ⟨w, -, hp, -⟩ := hstray
      exact hp (of_decide_eq_true hq w)
  | _ => exact hstray

/-- A watcher that the user has fed is not called before the next status is reaped. -/
theorem statuses_seen_fails : ∃ s, Runs linux (init : State Bool ℕ)
      [.evChildSet true 7 true, .evChildStart true, .evFeedEvent (.child true) 0, .evFeedEvent childev evSignal,
        .invokePending, .tick, .tick, .childcb (some (7, 65535)), .tick, .childcb (some (7, 0))] s ∧
    (s.ledger true).map (fun x => (x.pid, x.status, x.calls, x.cleared)) =
      [(7, 0, [], false), (7, 65535, [], false)] ∧ s.rstatus true = 0 ∧ ∃ x ∈ (s.ledger true).tail, ¬ x.Seen := by
  obtain ⟨s, hs⟩ : ∃ s, execFrom (step linux) (init : State Bool ℕ)
      [.evChildSet true 7 true, .evChildStart true, .evFeedEvent (.child true) 0, .evFeedEvent childev evSignal,
        .invokePending, .tick, .tick, .childcb (some (7, 65535)), .tick, .childcb (some (7, 0))] = some s := ⟨_, rfl⟩
  refine ⟨s, Run.iff_execFrom.mpr hs, ?_⟩
  cases hs
  refine ⟨by decide, by decide, ⟨7, 65535, [], 0, false⟩, ?_, fun h => ?_⟩
  · exact List.mem_singleton.mpr rfl
  · exact h.called.elim Bool.false_ne_true fun hne => hne rfl

end Child

end Qev
