/-
# fd interest

Between two `fd_reify` the backend may be told less or more than the watchers want,
but every fd where it is has been queued (`Tracked`). A run of user code, `fd_kill`,
`fd_rearm_all` and `fd_reify` over a backend that records what it is told keeps that,
so after `fd_reify` the backend knows what the watchers want (`fd_interest`).
-/
import Qev.Lib.Run
import Qev.Loop.Fd

namespace Qev

open Lib

namespace Fds

variable {W : Type} [DecidableEq W] {s t : Fds W} {w : W} {fd : ℕ} {queue : List ℕ}

/-! ### Masks -/

section

omit [DecidableEq W]

theorem getLsbD_foldl_or (l : List W) (f : W → BitVec 8) (e : BitVec 8) (i : ℕ) :
    (l.foldl (fun e w => e ||| f w) e).getLsbD i = (e.getLsbD i || l.any fun w => (f w).getLsbD i) := by
  induction l generalizing e with
  | nil => simp
  | cons w l ih => simp [ih, Bool.or_assoc]

/-- A bit is wanted of an fd when one of its watchers wants it. -/
theorem getLsbD_wanted (s : Fds W) (fd i : ℕ) :
    (s.wanted fd).getLsbD i = true ↔
      i < 8 ∧ ∃ w ∈ (s.anfds fd).head, (s.events w).getLsbD i = true := by
  unfold wanted
  rw [getLsbD_foldl_or]
  simp [BitVec.getLsbD_setWidth]
  tauto

theorem wanted_nil (h : (s.anfds fd).head = []) : s.wanted fd = 0 := by
  unfold wanted
  rw [h]
  rfl

theorem wanted_congr (hhead : (t.anfds fd).head = (s.anfds fd).head)
    (hev : ∀ w ∈ (s.anfds fd).head, t.events w = s.events w) : t.wanted fd = s.wanted fd := by
  unfold wanted
  rw [hhead]
  exact List.foldl_ext _ _ _ fun e w hw => by rw [hev w hw]

end

/-- An active watcher's mask has the two lowest bits only. -/
theorem getLsbD_mask {e : Events} (h : e &&& ~~~(evRead ||| evWrite) = 0) {i : ℕ} (hi : ¬ i < 8) :
    e.getLsbD i = false := by
  have hbit := congrArg (fun x : Events => x.getLsbD i) h
  by_cases hlt : i < 32
  · have hpow : 3 < 2 ^ i := lt_of_lt_of_le (by decide : 3 < 2 ^ 8) (Nat.pow_le_pow_right two_pos (not_lt.mp hi))
    have h3 : (evRead ||| evWrite).getLsbD i = false := by
      rw [show evRead ||| evWrite = BitVec.ofNat 32 3 by decide, BitVec.getLsbD_ofNat, Nat.testBit_lt_two_pow hpow,
        Bool.and_false]
    rw [BitVec.getLsbD_and, BitVec.getLsbD_not, h3] at hbit
    simpa [hlt] using hbit
  · exact BitVec.getLsbD_of_ge _ _ (not_lt.mp hlt)

theorem and_iofdset (x : BitVec 8) : x &&& evIofdset.setWidth 8 ≠ 0 ↔ x.getLsbD 7 = true := by
  revert x
  decide

/-! ### What has to be looked at again is queued -/

/-- An fd with change flags, or with a mask its watchers do not want, is in the queue. -/
structure Tracked (s : Fds W) (queue : List ℕ) : Prop where
  linked : s.Linked
  bound : ∀ fd, s.anfdmax ≤ fd → (s.anfds fd).head = [] ∧ (s.anfds fd).events = 0
  mask : ∀ w, s.active w ≠ 0 → s.events w &&& ~~~(evRead ||| evWrite) = 0
  queued : ∀ fd, (s.anfds fd).reify ≠ 0 → fd ∈ queue
  clean : ∀ fd, fd ∉ queue → (s.anfds fd).events = s.wanted fd

section

omit [DecidableEq W]

theorem tracked_fresh (h : ∀ fd, s.anfds fd = ⟨[], 0, 0, 0, 0⟩) (hact : ∀ w, s.active w = 0) (queue : List ℕ) :
    s.Tracked queue := by
  refine ⟨⟨fun fd w => ?_, fun fd => ?_⟩, fun fd _ => ?_, fun w hw => absurd (hact w) hw, fun fd hr => ?_, fun fd _ => ?_⟩
  · simp [h, hact]
  · simp [h]
  · simp [h]
  · rw [h] at hr
    exact absurd rfl hr
  · rw [wanted_nil (by rw [h]), h]

/-- A step that changes one fd, which it queues, or has in the queue. -/
theorem Tracked.touch (h : s.Tracked s.fdchanges) (fd : ℕ) (hl : t.Linked) (hin : fd ∈ t.fdchanges)
    (hsub : ∀ fd ∈ s.fdchanges, fd ∈ t.fdchanges)
    (hmask : ∀ w, t.active w ≠ 0 → t.events w &&& ~~~(evRead ||| evWrite) = 0)
    (hbound : ∀ fd, t.anfdmax ≤ fd → (t.anfds fd).head = [] ∧ (t.anfds fd).events = 0)
    (hother : ∀ fd', fd' ≠ fd → (t.anfds fd').reify = (s.anfds fd').reify ∧
      (t.anfds fd').events = (s.anfds fd').events ∧ t.wanted fd' = s.wanted fd') :
    t.Tracked t.fdchanges := by
  refine ⟨hl, hbound, hmask, fun fd' hr => ?_, fun fd' hn => ?_⟩
  · by_cases hfd : fd' = fd
    · exact hfd ▸ hin
    · rw [(hother fd' hfd).1] at hr
      exact hsub _ (h.queued fd' hr)
  · have hfd : fd' ≠ fd := fun he => hn (he ▸ hin)
    obtain ⟨-, h₁, h₂⟩ := hother fd' hfd
    rw [h₁, h₂]
    exact h.clean fd' fun hm => hn (hsub _ hm)

theorem fdchanges_fdChange (s : Fds W) (fd : ℕ) (flags : BitVec 8) :
    (s.fdChange fd flags).fdchanges =
      if (s.anfds fd).reify = 0 then s.fdchanges ++ [fd] else s.fdchanges := rfl

theorem mem_fdChange (hq : ∀ fd, (s.anfds fd).reify ≠ 0 → fd ∈ s.fdchanges) (fd : ℕ) (flags : BitVec 8) :
    fd ∈ (s.fdChange fd flags).fdchanges := by
  rw [fdchanges_fdChange]
  split
  · exact List.mem_append_right _ (List.mem_singleton_self fd)
  · rename_i hr
    exact hq fd hr

theorem sub_fdChange (s : Fds W) (fd : ℕ) (flags : BitVec 8) :
    ∀ fd' ∈ s.fdchanges, fd' ∈ (s.fdChange fd flags).fdchanges := by
  intro fd' h
  rw [fdchanges_fdChange]
  split
  · exact List.mem_append_left _ h
  · exact h

theorem reify_fdChange (s : Fds W) (fd : ℕ) (flags : BitVec 8) (fd' : ℕ) :
    ((s.fdChange fd flags).anfds fd').reify =
      if fd' = fd then (s.anfds fd).reify ||| flags else (s.anfds fd').reify := by
  by_cases h : fd' = fd
  · simp [fdChange, setFd, h]
  · simp [fdChange, setFd, h]

@[simp] theorem active_fdChange (s : Fds W) (fd : ℕ) (flags : BitVec 8) :
    (s.fdChange fd flags).active = s.active := rfl

/-- The mask of an inactive watcher does not matter. -/
theorem Tracked.inactive (h : s.Tracked queue) (hw : s.active w = 0) (hl : t.Linked) (hanfds : t.anfds = s.anfds)
    (hmax : t.anfdmax = s.anfdmax) (hact : t.active = s.active)
    (hev : ∀ v, v ≠ w → t.events v = s.events v) : t.Tracked queue := by
  have hne : ∀ fd', ∀ v ∈ (s.anfds fd').head, v ≠ w := fun fd' v hv he =>
    ((h.linked.mem fd' v).mp hv).1 (he ▸ hw)
  refine ⟨hl, fun fd hfd => ?_, fun v hv => ?_, fun fd hr => ?_, fun fd hn => ?_⟩
  · rw [hanfds]
    exact h.bound fd (hmax ▸ hfd)
  · rw [hact] at hv
    rw [hev v fun he => hv (he ▸ hw)]
    exact h.mask v hv
  · exact h.queued fd (hanfds ▸ hr)
  · rw [hanfds, wanted_congr (congrArg (fun a => (a fd).head) hanfds) fun v hv => hev v (hne fd v hv)]
    exact h.clean fd hn

end

theorem Tracked.evIoSet (h : s.Tracked queue) (hw : s.active w = 0) (fd : ℕ) (events : Events) :
    (s.evIoSet w fd events).Tracked queue :=
  h.inactive hw (h.linked.evIoSet hw fd events) rfl rfl rfl fun _ hv => Function.update_of_ne hv ..

theorem Tracked.start (h : s.Tracked s.fdchanges) (hw : s.active w = 0)
    (hm : s.events w &&& ~~~(evIofdset ||| evRead ||| evWrite) = 0) :
    (s.start w).Tracked (s.start w).fdchanges := by
  obtain ⟨s₁, hs₁⟩ : ∃ s₁, s₁ = s.wlistAdd w := ⟨_, rfl⟩
  obtain ⟨flags, hflags⟩ : ∃ flags : BitVec 8,
    flags = (s.events w &&& evIofdset).setWidth 8 ||| evAnfdReify := ⟨_, rfl⟩
  have hstart : s.start w = { s₁.fdChange (s.fd w) flags with
      events := Function.update s.events w (s.events w &&& ~~~evIofdset) } := by
    subst hs₁ hflags
    rfl
  have hfd₁ : s₁.fdchanges = s.fdchanges := by rw [hs₁]; rfl
  have hanfd : ∀ fd', fd' ≠ s.fd w → s₁.anfds fd' = s.anfds fd' := fun fd' hne => by
    rw [hs₁]
    exact Function.update_of_ne hne ..
  have hre : ∀ fd', (s₁.anfds fd').reify = (s.anfds fd').reify := fun fd' => by
    by_cases hfd : fd' = s.fd w
    · simp [hs₁, wlistAdd, setFd, hfd]
    · rw [hanfd fd' hfd]
  have hq : ∀ fd, (s₁.anfds fd).reify ≠ 0 → fd ∈ s₁.fdchanges := fun fd hr => by
    rw [hfd₁]
    exact h.queued fd (hre fd ▸ hr)
  refine h.touch (s.fd w) (h.linked.start hw) ?_ (fun fd' hin => ?_) (fun v hv => ?_) (fun fd' hmax => ?_)
    fun fd' hne => ⟨?_, ?_, ?_⟩
  · rw [hstart]
    exact mem_fdChange hq (s.fd w) flags
  · rw [hstart]
    exact sub_fdChange s₁ (s.fd w) flags fd' (hfd₁ ▸ hin)
  · have hact : (s.start w).active v = if v = w then 1 else s.active v := Function.update_apply ..
    have hev : (s.start w).events v =
      if v = w then s.events w &&& ~~~evIofdset else s.events v := Function.update_apply ..
    rw [hact] at hv
    rw [hev]
    split
    · rw [BitVec.and_assoc, ← BitVec.not_or, ← BitVec.or_assoc]
      exact hm
    · rename_i hvw
      rw [if_neg hvw] at hv
      exact h.mask v hv
  · have hmax' : max s.anfdmax (s.fd w + 1) ≤ fd' := by
      rw [hstart, hs₁] at hmax
      exact hmax
    have hne : fd' ≠ s.fd w := by omega
    rw [hstart]
    show ((s₁.fdChange _ _).anfds fd').head = [] ∧ ((s₁.fdChange _ _).anfds fd').events = 0
    rw [head_fdChange, events_fdChange, hanfd fd' hne]
    exact h.bound fd' (by omega)
  · rw [hstart]
    show ((s₁.fdChange _ _).anfds fd').reify = _
    rw [reify_fdChange, if_neg hne, hre]
  · rw [hstart]
    show ((s₁.fdChange _ _).anfds fd').events = _
    rw [events_fdChange, hanfd fd' hne]
  · refine wanted_congr ?_ fun v hv => ?_
    · rw [hstart]
      show ((s₁.fdChange _ _).anfds fd').head = _
      rw [head_fdChange, hanfd fd' hne]
    · have hvw : v ≠ w := fun he => hne (he ▸ ((h.linked.mem fd' v).mp hv).2.symm)
      exact Function.update_of_ne hvw ..

theorem Tracked.stop (h : s.Tracked s.fdchanges) (w : W) : (s.stop w).Tracked (s.stop w).fdchanges := by
  obtain ⟨s₁, hs₁⟩ : ∃ s₁, s₁ = s.wlistDel w := ⟨_, rfl⟩
  have hstop : s.stop w = s₁.fdChange (s.fd w) evAnfdReify := by
    subst hs₁
    rfl
  have hfd₁ : s₁.fdchanges = s.fdchanges := by rw [hs₁]; rfl
  have hmax₁ : s₁.anfdmax = s.anfdmax := by rw [hs₁]; rfl
  have hanfd : ∀ fd', fd' ≠ s.fd w → s₁.anfds fd' = s.anfds fd' := fun fd' hne => by
    rw [hs₁]
    exact Function.update_of_ne hne ..
  have hre : ∀ fd', (s₁.anfds fd').reify = (s.anfds fd').reify ∧ (s₁.anfds fd').events = (s.anfds fd').events ∧
      ((s.anfds fd').head = [] → (s₁.anfds fd').head = []) := fun fd' => by
    by_cases hfd : fd' = s.fd w
    · subst hfd
      simp +contextual [hs₁, wlistDel, setFd]
    · rw [hanfd fd' hfd]
      exact ⟨rfl, rfl, id⟩
  have hq : ∀ fd, (s₁.anfds fd).reify ≠ 0 → fd ∈ s₁.fdchanges := fun fd hr => by
    rw [hfd₁]
    exact h.queued fd ((hre fd).1 ▸ hr)
  refine h.touch (s.fd w) (h.linked.stop w) ?_ (fun fd' hin => ?_) (fun v hv => ?_) (fun fd' hmax => ?_)
    fun fd' hne => ⟨?_, ?_, ?_⟩
  · rw [hstop]
    exact mem_fdChange hq (s.fd w) _
  · rw [hstop]
    exact sub_fdChange s₁ (s.fd w) evAnfdReify fd' (hfd₁ ▸ hin)
  · have hact : (s.stop w).active v = if v = w then 0 else s.active v := Function.update_apply ..
    rw [hact] at hv
    split at hv
    · exact absurd rfl hv
    · exact h.mask v hv
  · rw [hstop] at hmax ⊢
    rw [head_fdChange, events_fdChange, (hre fd').2.1]
    obtain ⟨h₁, h₂⟩ := h.bound fd' (hmax₁ ▸ hmax)
    exact ⟨(hre fd').2.2 h₁, h₂⟩
  · rw [hstop, reify_fdChange, if_neg hne, (hre fd').1]
  · rw [hstop, events_fdChange, (hre fd').2.1]
  · refine wanted_congr ?_ fun v _ => ?_
    · rw [hstop, head_fdChange, hanfd fd' hne]
    · rw [hstop, hs₁]
      rfl

theorem mask_modify {a e : Events} (h : a &&& ~~~(evRead ||| evWrite) = 0) :
    ((a &&& evIofdset) ||| (e &&& (evRead ||| evWrite))) &&& ~~~(evRead ||| evWrite) = 0 := by
  have ha : a &&& evIofdset = 0 := by
    rw [show evIofdset = ~~~(evRead ||| evWrite) &&& evIofdset by decide, ← BitVec.and_assoc, h]
    exact BitVec.zero_and
  have hz : (0 : Events) ||| (e &&& (evRead ||| evWrite)) = e &&& (evRead ||| evWrite) := BitVec.zero_or
  rw [ha, hz, BitVec.and_assoc, show (evRead ||| evWrite) &&& ~~~(evRead ||| evWrite) = 0 by decide]
  exact BitVec.and_zero

section

omit [DecidableEq W]

/-- What an active watcher wants is wanted of its fd. -/
theorem Tracked.wanted_ne (h : s.Tracked queue) (hw : s.active w ≠ 0) (he : s.events w ≠ 0) :
    s.wanted (s.fd w) ≠ 0 := by
  intro h0
  refine he (BitVec.eq_of_getLsbD_eq fun i hi => ?_)
  show (s.events w).getLsbD i = (0#32).getLsbD i
  rw [BitVec.getLsbD_zero]
  by_contra hbit
  have hbit := Bool.eq_true_of_not_eq_false hbit
  by_cases hi8 : i < 8
  · have hwant := (getLsbD_wanted s (s.fd w) i).mpr ⟨hi8, w, (h.linked.mem _ w).mpr ⟨hw, rfl⟩, hbit⟩
    rw [h0] at hwant
    exact absurd hwant (by simp)
  · rw [getLsbD_mask (h.mask w hw) hi8] at hbit
    cases hbit

theorem Linked.congr (h : s.Linked) (hhead : ∀ fd, (t.anfds fd).head = (s.anfds fd).head)
    (hact : t.active = s.active) (hfd : t.fd = s.fd) : t.Linked :=
  ⟨fun fd w => by rw [hhead, hact, hfd]; exact h.mem fd w, fun fd => by rw [hhead]; exact h.nodup fd⟩

end

theorem Tracked.modify (h : s.Tracked s.fdchanges) (w : W) (events : Events) :
    (s.modify w events).Tracked (s.modify w events).fdchanges := by
  unfold Fds.modify
  simp only
  split
  · exact h
  · generalize hs₁ : ({ s with events := Function.update s.events w ((s.events w &&& evIofdset) |||
      (events &&& (evRead ||| evWrite))) } : Fds W) = s₁
    have hev : ∀ v, v ≠ w → s₁.events v = s.events v := fun v hv => by
      rw [← hs₁]
      exact Function.update_of_ne hv ..
    have hl : s₁.Linked := by
      rw [← hs₁]
      exact ⟨h.linked.mem, h.linked.nodup⟩
    have hch : s₁.fdchanges = s.fdchanges := by rw [← hs₁]
    have hanfds : s₁.anfds = s.anfds := by rw [← hs₁]
    split
    · rename_i hact
      have hact₁ : s₁.active = s.active := by rw [← hs₁]
      have hmax₁ : s₁.anfdmax = s.anfdmax := by rw [← hs₁]
      refine h.touch (s.fd w) (hl.fdChange _ _) (mem_fdChange ?_ _ _) (fun fd' hin => ?_) (fun v hv => ?_)
        (fun fd' hm => ?_) fun fd' hne => ⟨?_, ?_, ?_⟩
      · rw [hanfds, hch]
        exact h.queued
      · exact sub_fdChange _ _ _ _ (hch ▸ hin)
      · rw [active_fdChange, hact₁] at hv
        by_cases hvw : v = w
        · subst hvw
          show s₁.events v &&& _ = 0
          rw [← hs₁]
          show Function.update s.events v _ v &&& _ = 0
          rw [Function.update_self]
          exact mask_modify (h.mask v hv)
        · show s₁.events v &&& _ = 0
          rw [hev v hvw]
          exact h.mask v hv
      · rw [head_fdChange, events_fdChange, hanfds]
        exact h.bound fd' (hmax₁ ▸ hm)
      · rw [reify_fdChange, if_neg hne, hanfds]
      · rw [events_fdChange, hanfds]
      · refine wanted_congr (by rw [head_fdChange, hanfds]) fun v hv => hev v fun he => hne ?_
        rw [← he]
        exact ((h.linked.mem fd' v).mp hv).2.symm
    · rename_i hact
      rw [hch]
      exact h.inactive (not_not.mp hact) hl hanfds (by rw [← hs₁]) (by rw [← hs₁]) hev

section

omit [DecidableEq W]

theorem events_rearm (s : Fds W) (fd fd' : ℕ) :
    ((s.rearm fd).anfds fd').events = if fd' = fd then 0 else (s.anfds fd').events := by
  unfold rearm
  split
  · rw [events_fdChange]
    by_cases h : fd' = fd
    · simp [setFd, h]
    · simp [setFd, h]
  · rename_i h0
    split
    · rename_i h
      rw [h]
      exact not_not.mp h0
    · rfl

/-- An fd whose mask is dropped is queued. -/
theorem Tracked.ask (h : s.Tracked s.fdchanges) (fd : ℕ) {a : ANFD W} (hhead : a.head = (s.anfds fd).head)
    (hreify : a.reify = (s.anfds fd).reify) (hev : a.events = 0) (flags : BitVec 8) :
    ((s.setFd fd a).fdChange fd flags).Tracked ((s.setFd fd a).fdChange fd flags).fdchanges := by
  have hself : (s.setFd fd a).anfds fd = a := Function.update_self ..
  have hne : ∀ fd' ≠ fd, (s.setFd fd a).anfds fd' = s.anfds fd' := fun fd' h => Function.update_of_ne h ..
  have hheads : ∀ fd', ((s.setFd fd a).anfds fd').head = (s.anfds fd').head := fun fd' => by
    by_cases hfd : fd' = fd
    · rw [hfd, hself, hhead]
    · rw [hne fd' hfd]
  have hreifies : ∀ fd', ((s.setFd fd a).anfds fd').reify = (s.anfds fd').reify := fun fd' => by
    by_cases hfd : fd' = fd
    · rw [hfd, hself, hreify]
    · rw [hne fd' hfd]
  have hl : (s.setFd fd a).Linked := h.linked.congr hheads rfl rfl
  refine h.touch fd (hl.fdChange _ _) (mem_fdChange (fun fd' hr => ?_) _ _)
    (fun fd' hin => sub_fdChange (s.setFd fd a) _ _ _ hin) h.mask (fun fd' hm => ?_) fun fd' hfd => ⟨?_, ?_, ?_⟩
  · rw [hreifies] at hr
    exact h.queued fd' hr
  · obtain ⟨h₁, h₂⟩ := h.bound fd' hm
    rw [events_fdChange, head_fdChange, hheads]
    refine ⟨h₁, ?_⟩
    by_cases hfd : fd' = fd
    · rw [hfd, hself, hev]
    · rw [hne fd' hfd, h₂]
  · rw [reify_fdChange, if_neg hfd, hreifies]
  · rw [events_fdChange, hne fd' hfd]
  · exact wanted_congr (by rw [head_fdChange, hheads]) fun _ _ => rfl

theorem Tracked.rearm (h : s.Tracked s.fdchanges) (fd : ℕ) : (s.rearm fd).Tracked (s.rearm fd).fdchanges := by
  unfold Fds.rearm
  split
  · exact h.ask fd (a := { s.anfds fd with events := 0, emask := 0 }) rfl rfl rfl _
  · exact h

theorem Tracked.rearmAll (h : s.Tracked s.fdchanges) :
    s.rearmAll.Tracked s.rearmAll.fdchanges ∧ ∀ fd, (s.rearmAll.anfds fd).events = 0 := by
  have hmax : ∀ (s : Fds W) (fd : ℕ), (s.rearm fd).anfdmax = s.anfdmax := fun s fd => by
    unfold Fds.rearm
    split <;> rfl
  suffices ∀ n, ((List.range n).foldl (fun s fd => s.rearm fd) s).Tracked
      ((List.range n).foldl (fun s fd => s.rearm fd) s).fdchanges ∧
      ((List.range n).foldl (fun s fd => s.rearm fd) s).anfdmax = s.anfdmax ∧
      ∀ fd < n, (((List.range n).foldl (fun s fd => s.rearm fd) s).anfds fd).events = 0 by
    obtain ⟨h₁, h₂, h₃⟩ := this s.anfdmax
    refine ⟨h₁, fun fd => ?_⟩
    by_cases hfd : fd < s.anfdmax
    · exact h₃ fd hfd
    · exact (h₁.bound fd (h₂.trans_le (not_lt.mp hfd))).2
  intro n
  induction n with
  | zero => exact ⟨h, rfl, fun fd hfd => absurd hfd (Nat.not_lt_zero fd)⟩
  | succ n ih =>
    obtain ⟨h₁, h₂, h₃⟩ := ih
    rw [List.range_succ, List.foldl_append]
    refine ⟨h₁.rearm n, (hmax _ n).trans h₂, fun fd hfd => ?_⟩
    simp only [List.foldl_cons, List.foldl_nil]
    rw [events_rearm]
    split
    · rfl
    · exact h₃ fd (by omega)

end

theorem events_start (s : Fds W) (w : W) (fd : ℕ) : ((s.start w).anfds fd).events = (s.anfds fd).events := by
  refine (events_fdChange (s.wlistAdd w) ..).trans ?_
  by_cases hfd : fd = s.fd w
  · simp [wlistAdd, setFd, hfd]
  · simp [wlistAdd, setFd, hfd]

theorem events_stop (s : Fds W) (w : W) (fd : ℕ) : ((s.stop w).anfds fd).events = (s.anfds fd).events := by
  refine (events_fdChange (s.wlistDel w) ..).trans ?_
  by_cases hfd : fd = s.fd w
  · simp [wlistDel, setFd, hfd]
  · simp [wlistDel, setFd, hfd]

theorem events_modify (s : Fds W) (w : W) (events : Events) (fd : ℕ) :
    ((s.modify w events).anfds fd).events = (s.anfds fd).events := by
  unfold modify
  dsimp only
  split
  · rfl
  · split
    · exact events_fdChange ..
    · rfl

/-! ### fd_reify -/

section

omit [DecidableEq W]

theorem reify_reify (s : Fds W) (fd fd' : ℕ) :
    ((s.reify fd).anfds fd').reify = if fd' = fd then 0 else (s.anfds fd').reify := by
  by_cases h : fd' = fd
  · simp [reify, setFd, h]
  · simp [reify, setFd, h]

theorem events_reify (s : Fds W) (fd fd' : ℕ) :
    ((s.reify fd).anfds fd').events = if fd' = fd then s.wanted fd else (s.anfds fd').events := by
  by_cases h : fd' = fd
  · simp [reify, setFd, h]
  · simp [reify, setFd, h]

theorem head_reify (s : Fds W) (fd fd' : ℕ) : ((s.reify fd).anfds fd').head = (s.anfds fd').head := by
  by_cases h : fd' = fd
  · simp [reify, setFd, h]
  · simp [reify, setFd, h]

theorem wanted_reify (s : Fds W) (fd fd' : ℕ) : (s.reify fd).wanted fd' = s.wanted fd' :=
  wanted_congr (head_reify s fd fd') fun _ _ => rfl

/-- The first of the fds queued is looked at. -/
theorem Tracked.reify (h : s.Tracked (fd :: queue)) : (s.reify fd).Tracked queue := by
  refine ⟨h.linked.congr (head_reify s fd) rfl rfl, fun fd' hm => ?_, h.mask, fun fd' hr => ?_, fun fd' hn => ?_⟩
  · obtain ⟨h₁, h₂⟩ := h.bound fd' hm
    rw [head_reify, events_reify]
    refine ⟨h₁, ?_⟩
    split
    · rename_i he
      rw [← he]
      exact wanted_nil h₁
    · exact h₂
  · rw [reify_reify] at hr
    split at hr
    · exact absurd rfl hr
    · rename_i hne
      exact (List.mem_cons.mp (h.queued fd' hr)).resolve_left hne
  · rw [events_reify, wanted_reify]
    split
    · rename_i he
      rw [he]
    · rename_i hne
      exact h.clean fd' fun hm => hn ((List.mem_cons.mp hm).resolve_left hne)

theorem change_wanted {oev nev : BitVec 8} (h : s.change fd = some (oev, nev)) : nev = s.wanted fd := by
  unfold change at h
  exact (Prod.mk.inj (Option.ite_some_none_eq_some.mp h).2).2.symm

theorem change_eq (s : Fds W) (fd : ℕ) :
    s.change fd =
      if (s.anfds fd).events = s.wanted fd ∧ (s.anfds fd).reify.getLsbD 7 = false then none
      else some ((s.anfds fd).events, s.wanted fd) := by
  unfold change
  dsimp only
  by_cases he : (s.anfds fd).events = s.wanted fd
  · by_cases hr : (s.anfds fd).reify.getLsbD 7 = true
    · rw [if_neg (not_not.mpr he), if_pos ((and_iofdset _).mpr hr), if_neg (by simp [hr])]
    · rw [if_neg (not_not.mpr he), if_neg (fun hc => hr ((and_iofdset _).mp hc)),
        if_pos ⟨he, Bool.eq_false_of_not_eq_true hr⟩]
  · rw [if_pos he, if_pos (by decide), if_neg fun hc => he hc.1]

end

/-! ### EV__IOFDSET stays until fd_reify -/

/-- No fd loses the flag. -/
def Flagged (s t : Fds W) : Prop :=
  ∀ fd, (s.anfds fd).reify.getLsbD 7 = true → (t.anfds fd).reify.getLsbD 7 = true

section

omit [DecidableEq W]

theorem flagged_fdChange (s : Fds W) (fd : ℕ) (flags : BitVec 8) : Flagged s (s.fdChange fd flags) := by
  intro fd' h
  rw [reify_fdChange]
  split
  · rename_i he
    rw [BitVec.getLsbD_or, ← he, h, Bool.true_or]
  · exact h

end

theorem flagged_start (s : Fds W) (w : W) : Flagged s (s.start w) := by
  intro fd h
  refine flagged_fdChange (s.wlistAdd w) _ _ fd ?_
  by_cases hfd : fd = s.fd w
  · simpa [wlistAdd, setFd, hfd] using hfd ▸ h
  · simpa [wlistAdd, setFd, hfd] using h

theorem flagged_stop (s : Fds W) (w : W) : Flagged s (s.stop w) := by
  intro fd h
  refine flagged_fdChange (s.wlistDel w) _ _ fd ?_
  by_cases hfd : fd = s.fd w
  · simpa [wlistDel, setFd, hfd] using hfd ▸ h
  · simpa [wlistDel, setFd, hfd] using h

theorem flagged_modify (s : Fds W) (w : W) (events : Events) : Flagged s (s.modify w events) := by
  unfold modify
  intro fd h
  simp only
  split
  · exact h
  · split
    · exact flagged_fdChange _ _ _ fd h
    · exact h

section

omit [DecidableEq W]

theorem flagged_rearm (s : Fds W) (fd : ℕ) : Flagged s (s.rearm fd) := by
  unfold rearm
  intro fd' h
  split
  · refine flagged_fdChange _ _ _ fd' ?_
    by_cases hfd : fd' = fd
    · simpa [setFd, hfd] using hfd ▸ h
    · simpa [setFd, hfd] using h
  · exact h

theorem flagged_rearmAll (s : Fds W) : Flagged s s.rearmAll := by
  unfold rearmAll
  induction List.range s.anfdmax generalizing s with
  | nil => exact fun _ h => h
  | cons fd l ih => exact fun fd' h => ih (s.rearm fd) fd' (flagged_rearm s fd fd' h)

end

/-- Starting a watcher that was set flags its fd. -/
theorem start_flags (s : Fds W) (w : W) (h : (s.events w).getLsbD 7 = true) :
    ((s.start w).anfds (s.fd w)).reify.getLsbD 7 = true := by
  show (((s.wlistAdd w).fdChange (s.fd w) _).anfds (s.fd w)).reify.getLsbD 7 = true
  rw [reify_fdChange, if_pos rfl, BitVec.getLsbD_or, BitVec.getLsbD_or, BitVec.getLsbD_setWidth,
    BitVec.getLsbD_and, h]
  simp [evIofdset]

end Fds

/-! ### Runs over a recording backend -/

/-- What a backend is told, newest first: a mask for an fd, or that its kernel state is new. -/
inductive Call
  | modify (fd : ℕ) (oev nev : BitVec 8)
  | rearm

/-- The mask the backend has for an fd. -/
def told : List Call → ℕ → BitVec 8
  | [], _ => 0
  | .modify fd' _ nev :: k, fd => if fd = fd' then nev else told k fd
  | .rearm :: _, _ => 0

namespace Loop

variable {U T : Type} [DecidableEq U]

/-- A `backend_modify` that only records. -/
def record (fd : ℕ) (oev nev : BitVec 8) (l : Loop U T (List Call)) : Loop U T (List Call) :=
  { l with kernel := .modify fd oev nev :: l.kernel }

section

variable {K : Type} (l : Loop U T K)

theorem fds_evIoStart (w : IoW U) :
    (l.evIoStart w).fds = if l.fds.active w ≠ 0 then l.fds else l.fds.start w := by
  unfold evIoStart
  split <;> rfl

@[simp] theorem kernel_evIoStart (w : IoW U) : (l.evIoStart w).kernel = l.kernel := by
  unfold evIoStart
  split <;> rfl

theorem fds_evIoStop (w : IoW U) :
    (l.evIoStop w).fds = if l.fds.active w = 0 then l.fds else l.fds.stop w := by
  unfold evIoStop
  by_cases h : l.fds.active w = 0
  · rw [if_pos h, if_pos (by exact h)]
    rfl
  · rw [if_neg h, if_neg (by exact h)]
    rfl

@[simp] theorem kernel_evIoStop (w : IoW U) : (l.evIoStop w).kernel = l.kernel := by
  unfold evIoStop
  by_cases h : l.fds.active w = 0
  · rw [if_pos (by exact h)]
    rfl
  · rw [if_neg (by exact h)]
    rfl

/-- What stopping and feeding a watcher keep, `fd_kill` keeps. -/
theorem fdKillLoop_induction {P : Loop U T K → Prop} (fd : ℕ)
    (h : ∀ l w, w ∈ (l.fds.anfds fd).head → P l →
      P ((l.evIoStop w).evFeedEvent (.io w) (evError ||| evRead ||| evWrite))) (n : ℕ) (hl : P l) :
    P (fdKillLoop fd n l) := by
  induction n generalizing l with
  | zero => exact hl
  | succ n ih =>
    unfold fdKillLoop
    cases hh : (l.fds.anfds fd).head with
    | nil => exact hl
    | cons w ws => exact ih _ (h l w (hh ▸ List.mem_cons_self) hl)

end

end Loop

/-- A loop with, since the last `fd_reify`, the fds a watcher was set and then started on. `set` are the
watchers set since they were last started. -/
structure Interest (U T : Type) where
  loop : Loop U T (List Call)
  set : IoW U → Bool
  fresh : List ℕ

namespace Interest

variable {U T : Type} [DecidableEq U]

inductive Act (U : Type)
  | ioSet (w : IoW U) (fd : ℕ) (events : Events)
  | ioStart (w : IoW U)
  | ioStop (w : IoW U)
  | ioModify (w : IoW U) (events : Events)
  | fdKill (fd : ℕ)
  | fdRearmAll
  | fdReify

/-- What `ev_io_start` asserts of the mask. -/
def legal (events : Events) : Prop := events &&& ~~~(evIofdset ||| evRead ||| evWrite) = 0

instance (events : Events) : Decidable (legal events) := inferInstanceAs (Decidable (_ = _))

def step (s : Interest U T) : Act U → Option (Interest U T)
  | .ioSet w fd events =>
    if s.loop.fds.active w ≠ 0 then none
    else some { s with loop := s.loop.evIoSet w fd events, set := Function.update s.set w true }
  | .ioStart w =>
    if s.loop.fds.active w ≠ 0 then some { s with loop := s.loop.evIoStart w }
    else if legal (s.loop.fds.events w) then
      some { loop := s.loop.evIoStart w, set := Function.update s.set w false,
             fresh := if s.set w then s.loop.fds.fd w :: s.fresh else s.fresh }
    else none
  | .ioStop w => some { s with loop := s.loop.evIoStop w }
  | .ioModify w events => some { s with loop := s.loop.evIoModify w events }
  | .fdKill fd => some { s with loop := s.loop.fdKill fd }
  | .fdRearmAll => some { s with loop := { s.loop.fdRearmAll with kernel := .rearm :: s.loop.kernel } }
  | .fdReify => some { s with loop := s.loop.fdReify Loop.record, fresh := [] }

/-- A loop without active io watchers, and a backend that was told nothing. -/
structure Fresh (s : Interest U T) : Prop where
  anfds : ∀ fd, s.loop.fds.anfds fd = ⟨[], 0, 0, 0, 0⟩
  fdchanges : s.loop.fds.fdchanges = []
  active : ∀ w, s.loop.fds.active w = 0
  kernel : s.loop.kernel = []
  set : ∀ w, s.set w = false
  fresh : s.fresh = []

abbrev Runs (s : Interest U T) (acts : List (Act U)) (t : Interest U T) : Prop :=
  Run (fun s a t => step s a = some t) s acts t

/-- Each call came with the mask told before it. -/
def Honest (k : List Call) : Prop :=
  ∀ k₁ fd oev nev k₂, k = k₁ ++ .modify fd oev nev :: k₂ → oev = told k₂ fd

theorem Honest.modify {k : List Call} (h : Honest k) {fd : ℕ} {oev nev : BitVec 8} (ho : oev = told k fd) :
    Honest (.modify fd oev nev :: k) := by
  intro k₁ fd' oev' nev' k₂ heq
  cases k₁ with
  | nil =>
    cases heq
    exact ho
  | cons c k₁ => exact h k₁ fd' oev' nev' k₂ (List.cons.inj heq).2

theorem Honest.rearm {k : List Call} (h : Honest k) : Honest (.rearm :: k) := by
  intro k₁ fd' oev' nev' k₂ heq
  cases k₁ with
  | nil => cases heq
  | cons c k₁ => exact h k₁ fd' oev' nev' k₂ (List.cons.inj heq).2

/-- What holds of the fds and the backend, with `queue` still to be looked at. -/
structure Synced (l : Loop U T (List Call)) (queue : List ℕ) : Prop where
  tracked : l.fds.Tracked queue
  told : ∀ fd, (l.fds.anfds fd).events = told l.kernel fd
  honest : Honest l.kernel

structure Inv (s : Interest U T) : Prop where
  synced : Synced s.loop s.loop.fds.fdchanges
  set : ∀ w, s.set w = true → (s.loop.fds.events w).getLsbD 7 = true
  fresh : ∀ fd ∈ s.fresh, (s.loop.fds.anfds fd).reify.getLsbD 7 = true

section

omit [DecidableEq U]

theorem Synced.congr {l l' : Loop U T (List Call)} {queue : List ℕ} (h : Synced l queue) (hfds : l'.fds = l.fds)
    (hk : l'.kernel = l.kernel) : Synced l' queue :=
  ⟨hfds ▸ h.tracked, fun fd => by rw [hfds, hk]; exact h.told fd, hk ▸ h.honest⟩

end

/-- One io watcher is stopped. -/
theorem Inv.stop {s : Interest U T} (h : Inv s) (w : IoW U) : Inv { s with loop := s.loop.evIoStop w } := by
  by_cases hw : s.loop.fds.active w = 0
  · have hfds : (s.loop.evIoStop w).fds = s.loop.fds := by rw [Loop.fds_evIoStop, if_pos hw]
    exact ⟨by simpa only [hfds] using h.synced.congr hfds (Loop.kernel_evIoStop ..), by simpa only [hfds] using h.set,
      by simpa only [hfds] using h.fresh⟩
  · have hfds : (s.loop.evIoStop w).fds = s.loop.fds.stop w := by rw [Loop.fds_evIoStop, if_neg hw]
    have hsync : Synced (s.loop.evIoStop w) (s.loop.fds.stop w).fdchanges := by
      refine ⟨by rw [hfds]; exact h.synced.tracked.stop w, fun fd => ?_, ?_⟩
      · rw [hfds, Fds.events_stop, Loop.kernel_evIoStop]
        exact h.synced.told fd
      · rw [Loop.kernel_evIoStop]
        exact h.synced.honest
    have hev : (s.loop.fds.stop w).events = s.loop.fds.events := rfl
    exact ⟨by simpa only [hfds] using hsync, by simpa only [hfds, hev] using h.set,
      fun fd hfd => by simpa only [hfds] using Fds.flagged_stop s.loop.fds w fd (h.fresh fd hfd)⟩

theorem Inv.start {s : Interest U T} (h : Inv s) {w : IoW U} (hw : s.loop.fds.active w = 0)
    (hl : legal (s.loop.fds.events w)) :
    Inv { loop := s.loop.evIoStart w, set := Function.update s.set w false,
          fresh := if s.set w then s.loop.fds.fd w :: s.fresh else s.fresh } := by
  have hfds : (s.loop.evIoStart w).fds = s.loop.fds.start w := by
    rw [Loop.fds_evIoStart, if_neg (not_not.mpr hw)]
  have hold := Fds.flagged_start s.loop.fds w
  refine ⟨⟨?_, fun fd => ?_, ?_⟩, fun v hv => ?_, fun fd hfd => ?_⟩
  · simp only [hfds]
    exact h.synced.tracked.start hw hl
  · simp only [hfds, Fds.events_start, Loop.kernel_evIoStart]
    exact h.synced.told fd
  · simp only [Loop.kernel_evIoStart]
    exact h.synced.honest
  · simp only [hfds]
    have hvw : v ≠ w := by
      rintro rfl
      simp at hv
    replace hv : Function.update s.set w false v = true := hv
    rw [Function.update_of_ne hvw] at hv
    show (Function.update s.loop.fds.events w _ v).getLsbD 7 = true
    rw [Function.update_of_ne hvw]
    exact h.set v hv
  · simp only [hfds]
    by_cases hset : s.set w = true
    · simp only [hset, ↓reduceIte, List.mem_cons] at hfd
      rcases hfd with rfl | hfd
      · exact Fds.start_flags s.loop.fds w (h.set w hset)
      · exact hold fd (h.fresh fd hfd)
    · simp only [hset, Bool.false_eq_true, ↓reduceIte] at hfd
      exact hold fd (h.fresh fd hfd)

theorem getLsbD_modify (a e : Events) :
    ((a &&& evIofdset) ||| (e &&& (evRead ||| evWrite))).getLsbD 7 = a.getLsbD 7 := by
  simp [evIofdset, evRead, evWrite]

theorem Inv.modify {s : Interest U T} (h : Inv s) (w : IoW U) (events : Events) :
    Inv { s with loop := s.loop.evIoModify w events } := by
  refine ⟨⟨h.synced.tracked.modify w events, fun fd => ?_, h.synced.honest⟩, fun v hv => ?_, fun fd hfd => ?_⟩
  · show ((s.loop.fds.modify w events).anfds fd).events = _
    rw [Fds.events_modify]
    exact h.synced.told fd
  · have hv' := h.set v hv
    show ((s.loop.fds.modify w events).events v).getLsbD 7 = true
    unfold Fds.modify
    dsimp only
    split
    · exact hv'
    · have hup : (Function.update s.loop.fds.events w ((s.loop.fds.events w &&& evIofdset) |||
          (events &&& (evRead ||| evWrite))) v).getLsbD 7 = true := by
        by_cases hvw : v = w
        · rw [hvw, Function.update_self, getLsbD_modify, ← hvw]
          exact hv'
        · rw [Function.update_of_ne hvw]
          exact hv'
      split
      · exact hup
      · exact hup
  · exact Fds.flagged_modify s.loop.fds w events fd (h.fresh fd hfd)

section

omit [DecidableEq U]

theorem Inv.rearm {s : Interest U T} (h : Inv s) :
    Inv { s with loop := { s.loop.fdRearmAll with kernel := .rearm :: s.loop.kernel } } := by
  obtain ⟨htr, hev⟩ := h.synced.tracked.rearmAll
  have hevents : ∀ s : Fds (IoW U), s.rearmAll.events = s.events := by
    intro s
    unfold Fds.rearmAll
    generalize List.range s.anfdmax = l
    induction l generalizing s with
    | nil => rfl
    | cons fd l ih =>
      refine (ih (s.rearm fd)).trans ?_
      unfold Fds.rearm
      split <;> rfl
  refine ⟨⟨htr, hev, h.synced.honest.rearm⟩, fun v hv => ?_, fun fd hfd => ?_⟩
  · show (s.loop.fds.rearmAll.events v).getLsbD 7 = true
    rw [hevents]
    exact h.set v hv
  · exact Fds.flagged_rearmAll s.loop.fds fd (h.fresh fd hfd)

end

theorem Inv.kill {s : Interest U T} (h : Inv s) (fd : ℕ) : Inv { s with loop := s.loop.fdKill fd } :=
  Loop.fdKillLoop_induction s.loop (P := fun l => Inv { s with loop := l }) fd
    (fun l w _ hl => by
      have hs := hl.stop w
      exact ⟨hs.synced.congr rfl rfl, hs.set, hs.fresh⟩) _ h

/-- The watchers and their lists are the same. -/
structure Same (s t : Fds (IoW U)) : Prop where
  head : ∀ fd, (t.anfds fd).head = (s.anfds fd).head
  active : t.active = s.active
  fd : t.fd = s.fd
  events : t.events = s.events
  fdchanges : t.fdchanges = s.fdchanges

section

omit [DecidableEq U]

theorem fdReifyOne_cases (l : Loop U T (List Call)) (fd : ℕ) :
    (Loop.fdReifyOne Loop.record l fd).fds = l.fds.reify fd ∧
    ((Loop.fdReifyOne Loop.record l fd).kernel = l.kernel ∧ (l.fds.anfds fd).events = l.fds.wanted fd ∧
        (l.fds.anfds fd).reify.getLsbD 7 = false ∨
      (Loop.fdReifyOne Loop.record l fd).kernel =
        .modify fd (l.fds.anfds fd).events (l.fds.wanted fd) :: l.kernel) := by
  unfold Loop.fdReifyOne
  rw [Fds.change_eq]
  by_cases hc : (l.fds.anfds fd).events = l.fds.wanted fd ∧ (l.fds.anfds fd).reify.getLsbD 7 = false
  · rw [if_pos hc]
    exact ⟨rfl, .inl ⟨rfl, hc⟩⟩
  · rw [if_neg hc]
    exact ⟨rfl, .inr rfl⟩

/-- The fds queued are looked at, one after the other, and those flagged are submitted. -/
theorem Synced.reify {queue : List ℕ} {l : Loop U T (List Call)} (h : Synced l queue)
    (t : Loop U T (List Call)) (ht : t = queue.foldl (Loop.fdReifyOne Loop.record) l) :
    Synced t [] ∧ Same l.fds t.fds ∧
      ∃ new, t.kernel = new ++ l.kernel ∧
        ∀ fd ∈ queue, (l.fds.anfds fd).reify.getLsbD 7 = true → ∃ oev nev, .modify fd oev nev ∈ new := by
  induction queue generalizing l with
  | nil =>
    subst ht
    exact ⟨h, ⟨fun _ => rfl, rfl, rfl, rfl, rfl⟩, [], rfl, fun fd hfd => by cases hfd⟩
  | cons fd queue ih =>
    obtain ⟨hfds, hk⟩ := fdReifyOne_cases l fd
    generalize hl₁ : Loop.fdReifyOne Loop.record l fd = l₁ at hfds hk
    have h₁ : Synced l₁ queue := by
      refine ⟨hfds ▸ h.tracked.reify, fun fd' => ?_, ?_⟩
      · rw [hfds, Fds.events_reify]
        rcases hk with ⟨hk, hw, -⟩ | hk
        · rw [hk]
          split
          · rename_i he
            rw [he, ← hw]
            exact h.told fd
          · exact h.told fd'
        · rw [hk]
          simp only [Qev.told]
          split
          · rfl
          · exact h.told fd'
      · rcases hk with ⟨hk, -, -⟩ | hk
        · rw [hk]
          exact h.honest
        · rw [hk]
          exact h.honest.modify (h.told fd)
    obtain ⟨h₂, hsame, new, hnew, hall⟩ := ih h₁ (by rw [ht, List.foldl_cons, hl₁])
    refine ⟨h₂, ⟨fun fd' => ?_, ?_, ?_, ?_, ?_⟩, ?_⟩
    · rw [hsame.head, hfds, Fds.head_reify]
    · rw [hsame.active, hfds]
      rfl
    · rw [hsame.fd, hfds]
      rfl
    · rw [hsame.events, hfds]
      rfl
    · rw [hsame.fdchanges, hfds]
      rfl
    · have hlater : ∀ fd' ∈ queue, fd' ≠ fd → (l.fds.anfds fd').reify.getLsbD 7 = true →
          ∃ oev nev, Call.modify fd' oev nev ∈ new := fun fd' hin hne hflag => by
        refine hall fd' hin ?_
        rw [hfds, Fds.reify_reify, if_neg hne]
        exact hflag
      rcases hk with ⟨hk, -, hr⟩ | hk
      · refine ⟨new, hnew.trans (by rw [hk]), fun fd' hin hflag => ?_⟩
        have hne : fd' ≠ fd := by
          rintro rfl
          rw [hr] at hflag
          cases hflag
        exact hlater fd' ((List.mem_cons.mp hin).resolve_left hne) hne hflag
      · refine ⟨new ++ [.modify fd (l.fds.anfds fd).events (l.fds.wanted fd)], by rw [hnew, hk]; simp,
          fun fd' hin hflag => ?_⟩
        by_cases hne : fd' = fd
        · exact ⟨_, _, List.mem_append_right _ (by rw [hne]; exact List.mem_singleton_self _)⟩
        · obtain ⟨oev, nev, hm⟩ := hlater fd' ((List.mem_cons.mp hin).resolve_left hne) hne hflag
          exact ⟨oev, nev, List.mem_append_left _ hm⟩

end

/-- What `fd_reify` leaves behind. -/
structure Settled (s t : Interest U T) : Prop where
  synced : Synced t.loop []
  fdchanges : t.loop.fds.fdchanges = []
  set : t.set = s.set
  fresh : t.fresh = []
  events : t.loop.fds.events = s.loop.fds.events
  new : ∃ new, t.loop.kernel = new ++ s.loop.kernel ∧
    ∀ fd ∈ s.fresh, ∃ oev nev, .modify fd oev nev ∈ new

theorem Inv.reify {s t : Interest U T} (h : Inv s) (ht : step s .fdReify = some t) : Settled s t := by
  obtain ⟨l, hl⟩ : ∃ l, l = s.loop.fds.fdchanges.foldl (Loop.fdReifyOne Loop.record) s.loop := ⟨_, rfl⟩
  obtain ⟨hsync, hsame, new, hnew, hall⟩ := h.synced.reify l hl
  have hch : l.fds.fdchanges.drop s.loop.fds.fdchanges.length = [] := by
    rw [hsame.fdchanges, List.drop_length]
  have heq : t = { s with
      loop := { l with fds := l.fds.shift s.loop.fds.fdchanges.length }, fresh := [] } := by
    rw [hl]
    exact (Option.some.inj ht).symm
  rw [heq]
  refine ⟨⟨⟨?_, ?_, ?_, ?_, ?_⟩, hsync.told, hsync.honest⟩, hch, rfl, rfl, hsame.events, new, hnew,
    fun fd hfd => ?_⟩
  · exact hsync.tracked.linked.congr (fun _ => rfl) rfl rfl
  · exact hsync.tracked.bound
  · exact hsync.tracked.mask
  · exact hsync.tracked.queued
  · exact hsync.tracked.clean
  · have hflag := h.fresh fd hfd
    refine hall fd (h.synced.tracked.queued fd fun h0 => ?_) hflag
    rw [h0] at hflag
    cases hflag

section

omit [DecidableEq U]

theorem inv_fresh {s : Interest U T} (h : Fresh s) : Inv s := by
  refine ⟨⟨Fds.tracked_fresh h.anfds h.active _, fun fd => ?_, fun k₁ fd oev nev k₂ heq => ?_⟩, fun w hw => ?_,
    fun fd hfd => ?_⟩
  · simp [h.anfds, h.kernel, told]
  · simp [h.kernel] at heq
  · simp [h.set] at hw
  · simp [h.fresh] at hfd

end

theorem inv_step {s t : Interest U T} {a : Act U} (h : Inv s) (hs : step s a = some t) : Inv t := by
  cases a with
  | ioSet w fd events =>
    simp only [step] at hs
    split at hs
    · cases hs
    · rename_i hw
      cases hs
      refine ⟨⟨h.synced.tracked.evIoSet (not_not.mp hw) fd events, h.synced.told, h.synced.honest⟩, fun v hv => ?_,
        h.fresh⟩
      show (Function.update s.loop.fds.events w (events ||| evIofdset) v).getLsbD 7 = true
      by_cases hvw : v = w
      · rw [hvw, Function.update_self, BitVec.getLsbD_or]
        simp [evIofdset]
      · rw [Function.update_of_ne hvw]
        replace hv : Function.update s.set w true v = true := hv
        rw [Function.update_of_ne hvw] at hv
        exact h.set v hv
  | ioStart w =>
    simp only [step] at hs
    split at hs
    · rename_i hw
      cases hs
      have hsame : s.loop.evIoStart w = s.loop := by rw [Loop.evIoStart, if_pos hw]
      rw [hsame]
      exact h
    · rename_i hw
      split at hs
      · rename_i hl
        cases hs
        exact h.start (not_not.mp hw) hl
      · cases hs
  | ioStop w =>
    cases hs
    exact h.stop w
  | ioModify w events =>
    cases hs
    exact h.modify w events
  | fdKill fd =>
    cases hs
    exact h.kill fd
  | fdRearmAll =>
    cases hs
    exact h.rearm
  | fdReify =>
    have ht := h.reify hs
    refine ⟨ht.fdchanges ▸ ht.synced, fun w hw => ?_, fun fd hfd => ?_⟩
    · rw [ht.set] at hw
      rw [ht.events]
      exact h.set w hw
    · rw [ht.fresh] at hfd
      cases hfd

section

omit [DecidableEq U]

/-- A bit is recorded for an fd exactly when one of its active watchers wants it. -/
theorem Synced.recorded {l : Loop U T (List Call)} (h : Synced l []) (fd i : ℕ) :
    (Qev.told l.kernel fd).getLsbD i = true ↔
      ∃ w, l.fds.active w ≠ 0 ∧ l.fds.fd w = fd ∧ (l.fds.events w).getLsbD i = true := by
  rw [← h.told, h.tracked.clean fd List.not_mem_nil, Fds.getLsbD_wanted]
  constructor
  · rintro ⟨-, w, hm, hbit⟩
    obtain ⟨hact, hfd⟩ := (h.tracked.linked.mem fd w).mp hm
    exact ⟨w, hact, hfd, hbit⟩
  · rintro ⟨w, hact, hfd, hbit⟩
    refine ⟨?_, w, (h.tracked.linked.mem fd w).mpr ⟨hact, hfd⟩, hbit⟩
    by_contra hi
    rw [Fds.getLsbD_mask (h.tracked.mask w hact) hi] at hbit
    cases hbit

end

/-- After `fd_reify` the backend has been told what the active watchers want, each call came with the mask
told before, and an fd that a watcher was set and started on was submitted again. -/
theorem fd_interest {s₀ s t : Interest U T} {acts : List (Act U)} (h₀ : Fresh s₀) (hrun : Runs s₀ acts s)
    (hs : step s .fdReify = some t) :
    (∀ fd i, (told t.loop.kernel fd).getLsbD i = true ↔
      ∃ w, t.loop.fds.active w ≠ 0 ∧ t.loop.fds.fd w = fd ∧ (t.loop.fds.events w).getLsbD i = true) ∧
    Honest t.loop.kernel ∧
    ∃ new, t.loop.kernel = new ++ s.loop.kernel ∧
      ∀ fd ∈ s.fresh, ∃ oev nev, .modify fd oev nev ∈ new := by
  have h : Inv s := Run.invariant (fun _ _ _ h hs => inv_step h hs) hrun (inv_fresh h₀)
  have ht := h.reify hs
  exact ⟨ht.synced.recorded, ht.synced.honest, ht.new⟩

/-- Two watchers of one fd. -/
theorem fd_interest_two : ∃ s₀ s t : Interest Bool ℤ, Fresh s₀ ∧
    Runs s₀ [.ioSet (.user false) 3 evRead, .ioStart (.user false), .ioSet (.user true) 3 evWrite,
      .ioStart (.user true)] s ∧ step s .fdReify = some t ∧
    (told t.loop.kernel 3).getLsbD 0 = true ∧ ∃ oev nev, .modify 3 oev nev ∈ t.loop.kernel := by
  have hr : ∃ s₀ s t : Interest Bool ℤ, Fresh s₀ ∧
      Runs s₀ [.ioSet (.user false) 3 evRead, .ioStart (.user false), .ioSet (.user true) 3 evWrite,
        .ioStart (.user true)] s ∧ step s .fdReify = some t ∧ 3 ∈ s.fresh ∧
      t.loop.fds.active (.user false) ≠ 0 ∧ t.loop.fds.fd (.user false) = 3 ∧
      (t.loop.fds.events (.user false)).getLsbD 0 = true := by
    refine ⟨⟨.init .select true false true [], fun _ => false, []⟩, _, _, ?_, Run.iff_execFrom.mpr rfl, rfl,
      ?_, ?_, ?_, ?_⟩
    · exact ⟨fun _ => rfl, rfl, fun _ => rfl, rfl, fun _ => rfl, rfl⟩
    · decide
    · decide
    · decide
    · decide
  obtain ⟨s₀, s, t, h₀, hrun, hs, hin, hact, hfd, hbit⟩ := hr
  obtain ⟨hrec, -, new, hnew, hall⟩ := fd_interest h₀ hrun hs
  obtain ⟨oev, nev, hm⟩ := hall 3 hin
  refine ⟨s₀, s, t, h₀, hrun, hs, (hrec 3 0).mpr ⟨_, hact, hfd, hbit⟩, oev, nev, ?_⟩
  rw [hnew]
  exact List.mem_append_left _ hm

end Interest

end Qev
