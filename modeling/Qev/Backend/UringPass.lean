/-
# Changes reach the kernel

`fd_reify` only puts its requests in the submission ring, and only `iouring_poll` hands
them over. So what a pass changes has reached the kernel when it returns exactly if the
pass polls, or there was nothing to be handed over (`changes_reach_kernel`): a pass that
does not block leaves out the poll once the user's last watcher is stopped, and with it the
removal of that watcher's poll.
-/
import Qev.Backend.Uring
import Qev.Backend.Registration
import Qev.Loop.Wait

namespace Qev

open Lib

/-! ### The ring finds room -/

namespace Uring

namespace Sq

variable {S : Type} {q q' : Sq S} {as as' used : List Answer} {r : Option (BitVec 32)}

/-- Every `io_uring_enter` has consumed something. -/
def Sound (used : List Answer) : Prop := .error ∉ used ∧ .consumed 0 ∉ used

theorem Sound.append {used' : List Answer} (h : Sound (used ++ used')) : Sound used ∧ Sound used' := by
  simp only [Sound, List.mem_append, not_or] at h
  exact ⟨⟨h.1.1, h.2.1⟩, h.1.2, h.2.2⟩

theorem sqeTry_of_lt (h : q.pending < q.size.entries.toNat) : q.sqeTry = some (q.tail &&& q.size.ringMask) := by
  unfold sqeTry
  rw [if_neg]
  rw [BitVec.le_def, not_le]
  exact h

theorem size_consume (r : ℕ) (q : Sq S) : (q.consume r).size = q.size := by
  induction r generalizing q with
  | zero => rfl
  | succ r ih => exact ih q.consumeOne

theorem enterSubmit_sound {n : BitVec 32} (hq : q.Ringed) (h : q.enterSubmit n (used ++ as') = some (q', as'))
    (hs : Sound used) : q'.pending < q.pending ∧ q'.size = q.size := by
  have hacc : ∀ (q : Sq S) (c : BitVec 32), (q.accountConsumed c).size = q.size := by
    intro q c
    unfold accountConsumed
    split
    · rfl
    · rfl
  induction used with
  | nil => exact absurd (enterSubmit_length h) (by simp)
  | cons a used ih =>
    have hs' : Sound used := (Sound.append (show Sound ([a] ++ used) from hs)).2
    cases a with
    | eintr => exact ih h hs'
    | error => exact absurd List.mem_cons_self hs.1
    | consumed r =>
      have hr0 : r ≠ 0 := by
        rintro rfl
        exact hs.2 List.mem_cons_self
      simp only [List.cons_append, enterSubmit] at h
      split at h
      · rename_i hr
        obtain ⟨rfl, -⟩ := Prod.mk.inj (Option.some.inj h)
        obtain ⟨-, h₂, -⟩ := hq.consume hr.2
        refine ⟨?_, (hacc ..).trans (size_consume r q)⟩
        rw [pending_accountConsumed, h₂]
        omega
      · cases h

theorem getSqe_submitted (h : q.getSqe as = some (r, q', as')) : q'.submitted = q.submitted := by
  unfold getSqe at h
  generalize sqFlushMaxSpin = spin at h
  induction spin generalizing q as with
  | zero =>
    cases h
    rfl
  | succ spin ih =>
    unfold getSqeLoop at h
    split at h
    · cases h
      rfl
    · obtain ⟨⟨q₁, as₁⟩, hf, h⟩ := Option.bind_eq_some_iff.mp h
      refine (ih h).trans ?_
      unfold sqFlush at hf
      split at hf
      · cases hf
        rfl
      · rename_i hpos
        exact (enterSubmit_kept hpos hf).1

/-- `iouring_get_sqe` finds a slot. -/
theorem getSqe_sound (hq : q.Ringed) (hl : q.Short 0) (h : q.getSqe (used ++ as') = some (r, q', as'))
    (hs : Sound used) : ∃ slot, r = some slot := by
  unfold getSqe sqFlushMaxSpin at h
  rw [getSqeLoop] at h
  cases htry : q.sqeTry with
  | some slot =>
    rw [htry] at h
    simp only [Option.some.injEq, Prod.mk.injEq] at h
    obtain ⟨rfl, rfl, -⟩ := h
    exact ⟨slot, rfl⟩
  | none =>
    rw [htry] at h
    obtain ⟨⟨q₁, as₁⟩, hf, h⟩ := Option.bind_eq_some_iff.mp h
    have hfull := sqeTry_none htry
    have hpos : q.toSubmit ≠ 0 := by
      intro h0
      unfold Short at hl
      rw [h0] at hl
      have := q.entries_le
      exact absurd hl (by simp; omega)
    unfold sqFlush at hf
    rw [if_neg hpos] at hf
    obtain ⟨-, used₁, hu₁, hk⟩ := enterSubmit_kept hpos hf
    obtain ⟨-, used₂, hu₂, -⟩ := getSqeLoop_kept h
    replace hu₂ : as₁ = used₂ ++ as' := hu₂
    have hu : used = used₁ ++ used₂ := by
      rw [hu₂, ← List.append_assoc] at hu₁
      exact List.append_cancel_right hu₁
    rw [hu] at hs
    rw [hu₁] at hf
    obtain ⟨hlt, hsize⟩ := enterSubmit_sound hq hf hs.append.1
    have htry₁ : q₁.sqeTry = some (q₁.tail &&& q₁.size.ringMask) := by
      refine sqeTry_of_lt ?_
      rw [hsize]
      exact hlt.trans_le hq.room
    rw [getSqeLoop, htry₁] at h
    cases h
    exact ⟨_, rfl⟩

theorem eq_submitted_iff (h : q.Ringed) : q.consumed = q.submitted ↔ q.pending = 0 := by
  have ho := h.once
  constructor
  · intro he
    rw [he] at ho
    have hnil : q.unconsumed = [] := List.append_right_eq_self.mp ho
    have hlen : q.unconsumed.length = q.pending := by
      unfold unconsumed waiting
      simp
    rw [← hlen, hnil]
    rfl
  · intro hp
    have hnil : q.unconsumed = [] := by
      unfold unconsumed waiting
      rw [hp]
      rfl
    rw [hnil, List.append_nil] at ho
    exact ho

end Sq

/-! ### Asking -/

/-- Every request made is in the ring, and all that wait are counted. -/
structure Kernel.Exact (k : Kernel) : Prop where
  ringed : k.sq.Ringed
  short : k.sq.Short 0
  asked : k.asked = k.sq.submitted

/-- From `k` to `k'` these answers were used up, and no more requests put in the ring than were made. -/
structure Kernel.Used (k k' : Kernel) (used : List Answer) : Prop where
  answers : k.answers = used ++ k'.answers
  kept : k.sq.Kept k'.sq used
  made : k'.sq.submitted.length + k.asked.length ≤ k.sq.submitted.length + k'.asked.length
  exact : k.Exact → Sq.Sound used → k'.Exact

theorem Kernel.Used.refl (k : Kernel) : k.Used k [] := ⟨rfl, .refl _, le_rfl, fun h _ => h⟩

theorem Kernel.Used.trans {k k' k'' : Kernel} {used used' : List Answer} (h : k.Used k' used) (h' : k'.Used k'' used') :
    k.Used k'' (used ++ used') :=
  ⟨by rw [h.answers, h'.answers, List.append_assoc], h.kept.trans h'.kept, by have := h.made; have := h'.made; omega,
    fun he hs => h'.exact (h.exact he hs.append.1) hs.append.2⟩

/-- A request is made, and then waits. -/
theorem Kernel.ask_used {k : Kernel} {s : Sqe} (h : (k.ask s).1.silent = false) :
    k.silent = false ∧ ∃ used, k.Used (k.ask s).1 used ∧
      (k.Exact → Sq.Sound used → (k.ask s).2 = true ∧ 0 < (k.ask s).1.sq.pending) := by
  unfold ask at h ⊢
  cases hg : k.sq.getSqe k.answers with
  | none =>
    rw [hg] at h
    cases h
  | some r =>
    obtain ⟨slot, q, as⟩ := r
    rw [hg] at h
    obtain ⟨hslot, used, hu, hk⟩ := Sq.getSqeLoop_kept hg
    have hsub : q.submitted = k.sq.submitted := Sq.getSqe_submitted hg
    rw [hu] at hg
    cases slot with
    | none =>
      have hnot : k.Exact → ¬ Sq.Sound used := fun he hs => by
        obtain ⟨slot, hs⟩ := Sq.getSqe_sound he.ringed he.short hg hs
        cases hs
      refine ⟨h, used, ⟨hu, hk, ?_, fun he hs => absurd hs (hnot he)⟩, fun he hs => absurd hs (hnot he)⟩
      show q.submitted.length + _ ≤ _ + (k.asked ++ [s]).length
      rw [hsub, List.length_append]
      omega
    | some slot =>
      have hput := Sq.submitSqe_kept s (hslot slot rfl)
      have hk' := hk.trans hput
      rw [List.append_nil] at hk'
      refine ⟨h, used, ⟨hu, hk', ?_, fun he hs => ?_⟩, fun he hs => ⟨rfl, ?_⟩⟩
      · show (q.submitted ++ [s]).length + _ ≤ _ + (k.asked ++ [s]).length
        rw [hsub, List.length_append, List.length_append]
        omega
      · obtain ⟨hr, lost, hl, -, hiff⟩ := hk' he.ringed 0 he.short
        rw [hiff.mpr hs.1] at hl
        refine ⟨hr, hl, ?_⟩
        show k.asked ++ [s] = q.submitted ++ [s]
        rw [hsub, he.asked]
      · obtain ⟨-, hlt⟩ := Sq.sqeTry_some (hslot slot rfl)
        rw [Sq.pending_submitSqe s hlt]
        exact Nat.succ_pos _

end Uring

/-! ### fd_reify -/

namespace Fds

variable {W : Type} [DecidableEq W]

section

omit [DecidableEq W]

/-- An fd looked at has nothing to be told of any more. -/
theorem change_reify (s : Fds W) (fd fd' : ℕ) :
    (s.reify fd).change fd' = if fd' = fd then none else s.change fd' := by
  rw [change_eq, change_eq, events_reify, reify_reify, wanted_reify]
  by_cases hfd : fd' = fd
  · rw [if_pos hfd, if_pos hfd, if_pos hfd, hfd, if_pos ⟨rfl, by rfl⟩]
  · rw [if_neg hfd, if_neg hfd, if_neg hfd]

theorem change_setEgen (s : Fds W) (fd egen fd' : ℕ) : (s.setEgen fd egen).change fd' = s.change fd' := by
  have hanfd : ((s.setEgen fd egen).anfds fd').head = (s.anfds fd').head ∧
      ((s.setEgen fd egen).anfds fd').events = (s.anfds fd').events ∧
      ((s.setEgen fd egen).anfds fd').reify = (s.anfds fd').reify := by
    by_cases hfd : fd' = fd
    · simp [setEgen, hfd]
    · simp [setEgen, hfd]
  rw [change_eq, change_eq, hanfd.2.1, hanfd.2.2, wanted_congr hanfd.1 fun _ _ => rfl]

end

end Fds

namespace Loop

open Uring

variable {U T : Type} [DecidableEq U] {l l' : Loop U T Uring.Kernel}

/-- What `fd_reify` finds of an fd that `iouring_modify` makes no request for. -/
def Unasked (c : Option (BitVec 8 × BitVec 8)) : Prop := c = none ∨ c = some (0, 0)

instance (c : Option (BitVec 8 × BitVec 8)) : Decidable (Unasked c) := inferInstanceAs (Decidable (_ ∨ _))

/-- No fd in `fdchanges` has anything for the kernel. -/
def Quiet (l : Loop U T Uring.Kernel) : Prop := ∀ fd ∈ l.fds.fdchanges, Unasked (l.fds.change fd)

instance (l : Loop U T Uring.Kernel) : Decidable l.Quiet := inferInstanceAs (Decidable (∀ _ ∈ _, _))

section

omit [DecidableEq U]

/-- `iouring_modify` changes the generation and the kernel's side. -/
theorem iouringModify_eq (fd : ℕ) (oev nev : BitVec 8) (l : Loop U T Uring.Kernel) :
    ∃ s k, iouringModify fd oev nev l = { l with fds := s, kernel := k } ∧
      ∀ fd', s.change fd' = l.fds.change fd' := by
  unfold iouringModify
  dsimp only
  by_cases ho : oev ≠ 0
  · rw [if_pos ho]
    obtain ⟨k, b⟩ := l.kernel.ask (.pollRemove fd (l.gen fd))
    cases b with
    | true =>
      dsimp only
      split
      · exact ⟨_, _, rfl, Fds.change_setEgen l.fds fd _⟩
      · exact ⟨_, _, rfl, Fds.change_setEgen l.fds fd _⟩
    | false =>
      dsimp only
      rw [if_neg (by simp)]
      exact ⟨_, _, rfl, fun _ => rfl⟩
  · rw [if_neg ho]
    dsimp only
    split
    · exact ⟨l.fds, _, rfl, fun _ => rfl⟩
    · exact ⟨l.fds, l.kernel, rfl, fun _ => rfl⟩

/-- Unless both masks are 0, something waits after `iouring_modify`. -/
theorem iouringModify_used (l : Loop U T Uring.Kernel) (fd : ℕ) (oev nev : BitVec 8)
    (h : (iouringModify fd oev nev l).kernel.silent = false) :
    l.kernel.silent = false ∧ ∃ used, l.kernel.Used (iouringModify fd oev nev l).kernel used ∧
      (¬ (oev = 0 ∧ nev = 0) → l.kernel.Exact → Sq.Sound used → 0 < (iouringModify fd oev nev l).kernel.sq.pending) := by
  -- the second request, after whatever the first left
  have hadd : ∀ m : Loop U T Uring.Kernel, nev ≠ 0 →
      (m.kernel.ask (.pollAdd fd (m.gen fd) (Epoll.kernelMask nev))).1.silent = false →
      m.kernel.silent = false ∧ ∃ used,
        m.kernel.Used (m.kernel.ask (.pollAdd fd (m.gen fd) (Epoll.kernelMask nev))).1 used ∧
        (m.kernel.Exact → Sq.Sound used →
          0 < (m.kernel.ask (.pollAdd fd (m.gen fd) (Epoll.kernelMask nev))).1.sq.pending) := fun m _ hs => by
    obtain ⟨h₁, used, h₂, h₃⟩ := Kernel.ask_used hs
    exact ⟨h₁, used, h₂, fun he hs => (h₃ he hs).2⟩
  unfold iouringModify at h ⊢
  dsimp only at h ⊢
  by_cases ho : oev ≠ 0
  · rw [if_pos ho] at h ⊢
    have hask := Kernel.ask_used (k := l.kernel) (s := .pollRemove fd (l.gen fd))
    generalize l.kernel.ask (.pollRemove fd (l.gen fd)) = r at h hask ⊢
    obtain ⟨k, b⟩ := r
    cases b with
    | false =>
      dsimp only at h hask ⊢
      rw [if_neg (by simp)] at h ⊢
      obtain ⟨h₁, used, h₂, h₃⟩ := hask h
      exact ⟨h₁, used, h₂, fun _ he hs => (h₃ he hs).2⟩
    | true =>
      dsimp only at h hask ⊢
      by_cases hn : nev ≠ 0
      · rw [if_pos ⟨rfl, hn⟩] at h ⊢
        obtain ⟨h₁, used, h₂, h₃⟩ := hadd _ hn h
        obtain ⟨h₀, used₀, h₄, -⟩ := hask h₁
        exact ⟨h₀, used₀ ++ used, h₄.trans h₂, fun _ he hs => h₃ (h₄.exact he hs.append.1) hs.append.2⟩
      · rw [if_neg (fun hc => hn hc.2)] at h ⊢
        obtain ⟨h₁, used, h₂, h₃⟩ := hask h
        exact ⟨h₁, used, h₂, fun _ he hs => (h₃ he hs).2⟩
  · rw [if_neg ho] at h ⊢
    by_cases hn : nev ≠ 0
    · rw [if_pos ⟨rfl, hn⟩] at h ⊢
      obtain ⟨h₁, used, h₂, h₃⟩ := hadd l hn h
      exact ⟨h₁, used, h₂, fun _ he hs => h₃ he hs⟩
    · rw [if_neg (fun hc => hn hc.2)] at h ⊢
      exact ⟨h, [], .refl _, fun hne => absurd ⟨not_not.mp ho, not_not.mp hn⟩ hne⟩

theorem iouringModify_zero (fd : ℕ) (l : Loop U T Uring.Kernel) : iouringModify fd 0 0 l = l := by
  unfold iouringModify
  rw [if_neg (not_not.mpr rfl)]
  dsimp only
  rw [if_neg fun hc => hc.2 rfl]

/-- One of the fds queued. -/
theorem fdReifyOne_uring (fd : ℕ) (l : Loop U T Uring.Kernel) :
    ∃ s k, fdReifyOne iouringModify l fd = { l with fds := s, kernel := k } ∧
      (∀ fd', s.change fd' = if fd' = fd then none else l.fds.change fd') ∧
      (Unasked (l.fds.change fd) → k = l.kernel) ∧
      (k.silent = false → l.kernel.silent = false ∧ ∃ used, l.kernel.Used k used ∧
        (¬ Unasked (l.fds.change fd) → l.kernel.Exact → Sq.Sound used → 0 < k.sq.pending)) := by
  unfold fdReifyOne
  dsimp only
  cases hc : l.fds.change fd with
  | none =>
    exact ⟨l.fds.reify fd, l.kernel, rfl, Fds.change_reify l.fds fd, fun _ => rfl,
      fun h => ⟨h, [], .refl _, fun hn => absurd (.inl rfl) hn⟩⟩
  | some c =>
    obtain ⟨oev, nev⟩ := c
    dsimp only
    obtain ⟨s, k, heq, hs⟩ := iouringModify_eq fd oev nev { l with fds := l.fds.reify fd }
    have hused := iouringModify_used { l with fds := l.fds.reify fd } fd oev nev
    rw [heq] at hused ⊢
    refine ⟨s, k, rfl, fun fd' => (hs fd').trans (Fds.change_reify l.fds fd fd'), fun hun => ?_, fun hk => ?_⟩
    · rcases hun with hun | hun
      · cases hun
      · cases hun
        have hz := congrArg Loop.kernel (heq.symm.trans (iouringModify_zero fd _))
        exact hz
    · obtain ⟨h₁, used, h₂, h₃⟩ := hused hk
      refine ⟨h₁, used, h₂, fun hn => h₃ fun h0 => hn (.inr ?_)⟩
      rw [h0.1, h0.2]

theorem fdReifyAll_uring (queue : List ℕ) (l : Loop U T Uring.Kernel) :
    ∃ s k, queue.foldl (fdReifyOne iouringModify) l = { l with fds := s, kernel := k } ∧
      ((∀ fd ∈ queue, Unasked (l.fds.change fd)) → k = l.kernel) ∧
      (k.silent = false → l.kernel.silent = false ∧ ∃ used, l.kernel.Used k used ∧
        (l.kernel.Exact → Sq.Sound used →
          (0 < l.kernel.sq.pending ∨ ¬ ∀ fd ∈ queue, Unasked (l.fds.change fd)) → 0 < k.sq.pending)) := by
  induction queue generalizing l with
  | nil =>
    refine ⟨l.fds, l.kernel, rfl, fun _ => rfl, fun h => ⟨h, [], .refl _, fun _ _ hor => ?_⟩⟩
    exact hor.resolve_right fun hn => hn fun _ hfd => by cases hfd
  | cons fd queue ih =>
    obtain ⟨s₁, k₁, heq₁, hs₁, hz₁, hu₁⟩ := fdReifyOne_uring fd l
    obtain ⟨s₂, k₂, heq₂, hz₂, hu₂⟩ := ih { l with fds := s₁, kernel := k₁ }
    -- what is left of the queue is asked for as before
    have hleft : (∀ fd' ∈ fd :: queue, Unasked (l.fds.change fd')) ↔
        Unasked (l.fds.change fd) ∧ ∀ fd' ∈ queue, Unasked (s₁.change fd') := by
      rw [List.forall_mem_cons]
      refine and_congr_right fun hfd => forall₂_congr fun fd' _ => ?_
      rw [hs₁]
      split
      · rename_i he
        rw [he]
        exact ⟨fun _ => .inl rfl, fun _ => hfd⟩
      · rfl
    refine ⟨s₂, k₂, by rw [List.foldl_cons, heq₁, heq₂], fun hq => ?_, fun hk => ?_⟩
    · obtain ⟨hq₁, hq₂⟩ := hleft.mp hq
      exact (hz₂ hq₂).trans (hz₁ hq₁)
    · obtain ⟨hk₁, used₂, hused₂, hpos₂⟩ := hu₂ hk
      obtain ⟨hk₀, used₁, hused₁, hpos₁⟩ := hu₁ hk₁
      refine ⟨hk₀, used₁ ++ used₂, hused₁.trans hused₂, fun he hs hor => ?_⟩
      refine hpos₂ (hused₁.exact he hs.append.1) hs.append.2 ?_
      by_cases hfd : Unasked (l.fds.change fd)
      · rcases hor with hpos | hnot
        · left
          show 0 < k₁.sq.pending
          rw [hz₁ hfd]
          exact hpos
        · exact .inr fun hq => hnot (hleft.mpr ⟨hfd, hq⟩)
      · exact .inl (hpos₁ hfd he hs.append.1)

/-- `fd_reify` hands nothing over: what waited, or is asked for now, waits. -/
theorem fdReify_uring (l : Loop U T Uring.Kernel) :
    ∃ s k, l.fdReify iouringModify = { l with fds := s, kernel := k } ∧ (l.Quiet → k = l.kernel) ∧
      (k.silent = false → l.kernel.silent = false ∧ ∃ used, l.kernel.Used k used ∧
        (l.kernel.Exact → Sq.Sound used → (0 < l.kernel.sq.pending ∨ ¬ l.Quiet) → 0 < k.sq.pending)) := by
  obtain ⟨s, k, heq, hz, hu⟩ := fdReifyAll_uring l.fds.fdchanges l
  unfold fdReify
  dsimp only
  rw [heq]
  exact ⟨_, k, rfl, hz, hu⟩

end

/-- Reading completions hands nothing over. -/
theorem kernel_iouringCqDrain (cqes : List Cqe) (l : Loop U T Uring.Kernel) :
    (iouringCqDrain l cqes).kernel = l.kernel := by
  have hone : ∀ (l : Loop U T Uring.Kernel) (c : Cqe), (iouringCqe l c).kernel = l.kernel := by
    intro l c
    cases c with
    | removed => rfl
    | poll fd gen res =>
      simp only [iouringCqe]
      split
      · rfl
      · split
        · rfl
        · cases res with
          | ebadf => exact kernel_fdKill l fd
          | ended => rfl
          | error => rfl
          | events events =>
            dsimp only
            split
            · exact kernel_fdEvent l fd _
            · rfl
  unfold iouringCqDrain
  induction cqes.take cqDrainBudget generalizing l with
  | nil => rfl
  | cons c cs ih => exact (ih _).trans (hone l c)

theorem iouringPoll_used {drains : List (List Cqe)} (h : (l.iouringPoll drains).kernel.silent = false) :
    l.kernel.silent = false ∧ (l.iouringPoll drains).kernel.sq.toSubmit = 0 ∧
      ∃ used, l.kernel.Used (l.iouringPoll drains).kernel used := by
  unfold iouringPoll at h ⊢
  cases hp : l.kernel.sq.pollSubmit l.kernel.answers with
  | none =>
    rw [hp] at h
    cases h
  | some r =>
    obtain ⟨q, as⟩ := r
    rw [hp] at h
    have hdrains : ∀ m : Loop U T Uring.Kernel, ((drains.take 2).foldl iouringCqDrain m).kernel = m.kernel := by
      generalize drains.take 2 = ds
      induction ds with
      | nil => exact fun _ => rfl
      | cons d ds ih => exact fun m => (ih _).trans (kernel_iouringCqDrain d m)
    rw [hdrains] at h
    dsimp only
    rw [hdrains]
    obtain ⟨h0, hsub, used, hu, hk⟩ := Sq.pollSubmit_kept _ _ hp
    refine ⟨h, h0, used, hu, hk, by rw [hsub], fun he hs => ?_⟩
    obtain ⟨hr, lost, hl, -, hiff⟩ := hk he.ringed 0 he.short
    rw [hiff.mpr hs.1] at hl
    exact ⟨hr, hl, he.asked.trans hsub.symm⟩

end Loop

/-! ### Passes -/

namespace Uring

open Loop

/-- What a pass is called with and finds: its flags, `mn_now - prev_mn_now`, the clocks, the kernel's answers
to all its `io_uring_enter`s, and what each reading of the completion ring finds. -/
structure PassIn (T : Type) where
  flags : PassFlags
  elapsed : T
  clocks : Clocks T
  answers : List Answer
  drains : List (List Cqe)

variable {U T : Type} [DecidableEq U] [LinearOrder T]

section

variable [Add T] [Sub T] [Zero T] (e : Env U T) (t : Timing T)

/-- A pass from `fd_reify` to `backend_poll`, when the kernel answers exactly this. -/
def pass (p : PassIn T) (l : Loop U T Kernel) : Option (Loop U T Kernel) :=
  let l : Loop U T Kernel := { l with kernel := { l.kernel with answers := p.answers, silent := false } }
  let l := (l.fdReify iouringModify).prePollUpdate e p.flags p.clocks
  let l := if l.polls e t p.flags p.elapsed then l.iouringPoll p.drains else l
  if l.kernel.silent = false ∧ l.kernel.answers = [] then some l else none

/-- What happens to a loop: a pass; a fork, for which the ring is created anew; and all else, the user's calls
and the rest of each pass among it, which leaves the ring alone. -/
inductive Act (U T : Type)
  | pass (p : PassIn T)
  | fork (c : Created)
  | other (l : Loop U T Kernel)

inductive Step : Loop U T Kernel → Act U T → Loop U T Kernel → Prop
  | pass {p : PassIn T} {l l' : Loop U T Kernel} (h : Uring.pass e t p l = some l') : Step l (.pass p) l'
  | fork (c : Created) (l : Loop U T Kernel) : Step l (.fork c) (l.iouringFork c)
  | other {l l' : Loop U T Kernel} (h : l'.kernel = l.kernel) : Step l (.other l') l'

abbrev Runs (l : Loop U T Kernel) (acts : List (Act U T)) (l' : Loop U T Kernel) : Prop :=
  Run (Step e t) l acts l'

end

/-- No pass of these gets an `io_uring_enter` that succeeds and consumes nothing. -/
def Consuming (acts : List (Act U T)) : Prop := ∀ p, .pass p ∈ acts → .consumed 0 ∉ p.answers

/-- The ring is in order with requests that were made, and if none that waits is left out of the count, with
all that were made. -/
structure Kernel.Good (k : Kernel) : Prop where
  ringed : k.sq.Ringed
  made : k.sq.submitted.length ≤ k.asked.length
  short : ∃ lost, k.sq.Short lost ∧ (lost = 0 → k.asked = k.sq.submitted)

theorem Kernel.good_init (c : Created) : (Kernel.init c).Good := by
  refine ⟨Sq.ringed_init .., le_rfl, 0, ?_, fun _ => rfl⟩
  simp [Kernel.init, Sq.Short, Sq.pending, Sq.init]

theorem Kernel.Used.good {k k' : Kernel} {used : List Answer} (h : k.Used k' used) (hg : k.Good)
    (hz : .consumed 0 ∉ used) : k'.Good := by
  obtain ⟨hr, hmade, lost, hl, hasked⟩ := hg
  obtain ⟨hr', lost', hl', hle, hiff⟩ := h.kept hr lost hl
  refine ⟨hr', by have := h.made; omega, lost', hl', fun h0 => ?_⟩
  have hl0 : lost = 0 := by omega
  have he : k'.Exact := h.exact ⟨hr, hl0 ▸ hl, hasked hl0⟩ ⟨hiff.mp (h0.trans hl0.symm), hz⟩
  exact he.asked

variable [AddCommGroup T] [IsOrderedAddMonoid T] {e : Env U T} {t : Timing T} {l l' : Loop U T Kernel}

/-- What a pass does to the ring: it uses its answers, and hands all over if it polls. -/
theorem pass_used {p : PassIn T} (h : pass e t p l = some l') :
    ({ l.kernel with answers := p.answers, silent := false } : Kernel).Used l'.kernel p.answers ∧
    (((l.prePollUpdate e p.flags p.clocks).mayBlock e t p.flags ∨ (l.iocnt ≠ 0 ∧ p.flags.nopoll = false)) →
      l'.kernel.sq.toSubmit = 0) ∧
    (¬ ((l.prePollUpdate e p.flags p.clocks).mayBlock e t p.flags ∨ (l.iocnt ≠ 0 ∧ p.flags.nopoll = false)) →
      (l.Quiet → l'.kernel.sq = l.kernel.sq) ∧
      (l.kernel.Exact → Sq.Sound p.answers → (0 < l.kernel.sq.pending ∨ ¬ l.Quiet) → 0 < l'.kernel.sq.pending)) := by
  obtain ⟨l₀, hl₀⟩ : ∃ l₀ : Loop U T Kernel,
    l₀ = { l with kernel := { l.kernel with answers := p.answers, silent := false } } := ⟨_, rfl⟩
  obtain ⟨s, k, heq, hquiet, hused⟩ := fdReify_uring l₀
  obtain ⟨pd, n, mn, rt, hpre⟩ := prePollUpdate_eq e p.flags p.clocks l₀
  have hk₀ : l₀.kernel = { l.kernel with answers := p.answers, silent := false } := by rw [hl₀]
  have hquiet₀ : l₀.Quiet ↔ l.Quiet := by rw [hl₀]; rfl
  have hl : l = { l₀ with fds := l.fds, kernel := l.kernel } := by rw [hl₀]
  obtain ⟨m, hm⟩ : ∃ m : Loop U T Kernel, m =
    { l₀ with periodics := pd, rescheduleCnt := n, mnNow := mn, evRtNow := rt, fds := s, kernel := k } := ⟨_, rfl⟩
  -- whether the pass polls does not depend on what `fd_reify` did
  have hpolls : m.polls e t p.flags p.elapsed ↔
      ((l.prePollUpdate e p.flags p.clocks).mayBlock e t p.flags ∨ (l.iocnt ≠ 0 ∧ p.flags.nopoll = false)) := by
    rw [hl, hpre, polls_iff, hm]
    rfl
  unfold pass at h
  dsimp only at h
  rw [← hl₀, heq, hpre, ← hm] at h
  rw [← hpolls]
  have hmk : m.kernel = k := by rw [hm]
  by_cases hpoll : m.polls e t p.flags p.elapsed
  · rw [if_pos hpoll] at h
    split at h
    · rename_i hend
      cases h
      obtain ⟨hk, h0, used₂, hu₂⟩ := iouringPoll_used hend.1
      rw [hmk] at hk hu₂
      obtain ⟨-, used₁, hu₁, -⟩ := hused hk
      rw [hk₀] at hu₁
      have hu := hu₁.trans hu₂
      have hall : p.answers = used₁ ++ used₂ := by
        have ha := hu.answers
        rw [hend.2, List.append_nil] at ha
        exact ha
      rw [hall] at hu ⊢
      exact ⟨hu, fun _ => h0, fun hn => absurd hpoll hn⟩
    · cases h
  · rw [if_neg hpoll] at h
    split at h
    · rename_i hend
      cases h
      rw [hmk] at hend ⊢
      obtain ⟨-, used, hu, hpos⟩ := hused hend.1
      rw [hk₀] at hu hpos
      have hall : p.answers = used := by
        have ha := hu.answers
        rw [hend.2, List.append_nil] at ha
        exact ha
      rw [← hall] at hu hpos
      refine ⟨hu, fun hp => absurd hp hpoll, fun _ => ⟨fun hq => ?_, fun he hs hor => hpos ?_ hs ?_⟩⟩
      · rw [hquiet (hquiet₀.mpr hq), hk₀]
      · exact ⟨he.ringed, he.short, he.asked⟩
      · exact hor.imp_right fun hn hq => hn (hquiet₀.mp hq)
    · cases h

theorem good_step {a : Act U T} (h : l.kernel.Good) (hs : Step e t l a l') (hz : Consuming [a]) : l'.kernel.Good := by
  cases hs with
  | pass hp => exact (pass_used hp).1.good ⟨h.ringed, h.made, h.short⟩ (hz _ List.mem_cons_self)
  | fork c => exact Kernel.good_init c
  | other hk =>
    rw [hk]
    exact h

theorem good_run {acts : List (Act U T)} (hrun : Runs e t l acts l') (h : l.kernel.Good) (hz : Consuming acts) :
    l'.kernel.Good := by
  induction hrun with
  | nil => exact h
  | cons hs _ ih =>
    refine ih (good_step h hs fun p hp => hz p ?_) fun p hp => hz p (List.mem_cons_of_mem _ hp)
    rw [List.mem_singleton.mp hp]
    exact List.mem_cons_self

/-- In every run a pass has handed the kernel all that was asked for when it returns, exactly if the requests
that waited were counted, no `io_uring_enter` of it has failed, and it polls or there was nothing: no request
waited, and no fd in `fdchanges` had one to make. -/
theorem changes_reach_kernel {c : Created} {l₀ : Loop U T Kernel} (h₀ : l₀.kernel = .init c) {acts : List (Act U T)}
    (hrun : Runs e t l₀ acts l) (hz : Consuming acts) {p : PassIn T} (hzp : .consumed 0 ∉ p.answers)
    (hp : p.flags.nopoll = false) (hs : pass e t p l = some l') :
    (l'.kernel.sq.toSubmit = 0 ∧ l'.kernel.sq.consumed = l'.kernel.asked) ↔
      l.kernel.sq.toSubmit = l.kernel.sq.tail - l.kernel.sq.head ∧ .error ∉ p.answers ∧
        ((l.prePollUpdate e p.flags p.clocks).mayBlock e t p.flags ∨ l.iocnt ≠ 0 ∨
          (l.kernel.sq.toSubmit = 0 ∧ l.Quiet)) := by
  have hgood := good_run hrun (by rw [h₀]; exact Kernel.good_init c) hz
  obtain ⟨hused, hpoll, hskip⟩ := pass_used hs
  have hgood' := hused.good ⟨hgood.ringed, hgood.made, hgood.short⟩ hzp
  obtain ⟨hr, hmade, lost, hl, hasked⟩ := hgood
  obtain ⟨hr', lost', hl', hle, hiff⟩ := hused.kept hr lost hl
  have hcount : l.kernel.sq.toSubmit = l.kernel.sq.tail - l.kernel.sq.head ↔ lost = 0 := by
    rw [← BitVec.toNat_inj]
    unfold Sq.Short Sq.pending at hl
    omega
  have hts : l'.kernel.sq.toSubmit = 0 ↔ l'.kernel.sq.toSubmit.toNat = 0 := by
    rw [← BitVec.toNat_inj]
    rfl
  unfold Sq.Short at hl'
  -- all is handed over when nothing waits any more
  have hdone : (l'.kernel.sq.toSubmit = 0 ∧ l'.kernel.sq.consumed = l'.kernel.asked) ↔ l'.kernel.sq.pending = 0 := by
    constructor
    · rintro ⟨-, hcons⟩
      refine (Sq.eq_submitted_iff hr').mp (List.IsPrefix.eq_of_length_le ⟨_, hr'.once⟩ ?_)
      rw [hcons]
      exact hgood'.made
    · intro hpend
      have hlost : lost = 0 := by omega
      have he := hused.exact ⟨hr, hlost ▸ hl, hasked hlost⟩ ⟨hiff.mp (by omega), hzp⟩
      exact ⟨hts.mpr (by omega), by rw [he.asked]; exact (Sq.eq_submitted_iff hr').mpr hpend⟩
  rw [hdone, hcount]
  by_cases hp' : (l.prePollUpdate e p.flags p.clocks).mayBlock e t p.flags ∨ (l.iocnt ≠ 0 ∧ p.flags.nopoll = false)
  · have h0 := hts.mp (hpoll hp')
    constructor
    · intro hpend
      exact ⟨by omega, hiff.mp (by omega), hp'.imp_right fun h => .inl h.1⟩
    · rintro ⟨hlost, herr, -⟩
      have := hiff.mpr herr
      omega
  · obtain ⟨hquiet, hwaits⟩ := hskip hp'
    have hno : ¬ ((l.prePollUpdate e p.flags p.clocks).mayBlock e t p.flags ∨ l.iocnt ≠ 0) := fun h =>
      hp' (h.imp_right fun h => ⟨h, hp⟩)
    constructor
    · intro hpend
      have hlost : lost = 0 := by omega
      have herr := hiff.mp (by omega)
      by_contra hcond
      have hw := hwaits ⟨hr, hlost ▸ hl, hasked hlost⟩ ⟨herr, hzp⟩
      refine absurd hpend (Nat.pos_iff_ne_zero.mp (hw ?_))
      by_contra hnone
      rw [not_or, not_not] at hnone
      refine hcond ⟨hlost, herr, .inr (.inr ⟨?_, hnone.2⟩)⟩
      rw [← BitVec.toNat_inj]
      unfold Sq.Short at hl
      show _ = 0
      omega
    · rintro ⟨hlost, herr, hor⟩
      rcases hor with h | h | ⟨h0, hq⟩
      · exact absurd (.inl h) hno
      · exact absurd (.inr h) hno
      · rw [hquiet hq]
        unfold Sq.Short at hl
        rw [h0] at hl
        rw [← hl, hlost]
        rfl

/-- A ring of four slots, and a timerfd. -/
def created4 : Created :=
  ⟨Sq.size4, 0, fun _ => 0, fun _ => .pollRemove 0 0, 9⟩

/-- A loop with the backend's own watcher. -/
def loop4 : Loop Bool ℤ Kernel := (Loop.init .iouring true false true (.init created4)).iouringInit created4

def env4 : Env Bool ℤ := ⟨.four, fun _ _ now => now, fun _ _ now => now⟩

def timing4 : Timing ℤ := ⟨60, 60, 0, 0, 1, by decide, by decide, by decide⟩

/-- A pass that does not block. -/
def nowait4 (answers : List Answer) : PassIn ℤ := ⟨⟨true, false, false⟩, 0, ⟨0, 0, false⟩, answers, []⟩

/-- The pass after the user's only watcher was started polls, so the two requests are handed over. -/
theorem changes_reach_kernel_started : ∃ l l' : Loop Bool ℤ Kernel,
    Runs env4 timing4 loop4 [.other ((loop4.evIoSet (.user true) 3 evRead).evIoStart (.user true))] l ∧
    pass env4 timing4 (nowait4 [.consumed 2]) l = some l' ∧
    l'.kernel.sq.toSubmit = 0 ∧ l'.kernel.sq.consumed = l'.kernel.asked := by
  obtain ⟨l, hl⟩ : ∃ l, l = (loop4.evIoSet (.user true) 3 evRead).evIoStart (.user true) := ⟨_, rfl⟩
  have hrun : Runs env4 timing4 loop4 [.other l] l := by
    refine .cons (.other ?_) (.nil _)
    rw [hl]
    rfl
  have hsome : (pass env4 timing4 (nowait4 [.consumed 2]) l).isSome = true := by
    rw [hl]
    decide +kernel
  obtain ⟨l', hl'⟩ := Option.isSome_iff_exists.mp hsome
  have hio : l.iocnt = 1 ∧ l.kernel.sq.toSubmit = l.kernel.sq.tail - l.kernel.sq.head := by
    rw [hl]
    decide
  have hz : Consuming [.other l] := fun p hp => by simp at hp
  have h := (changes_reach_kernel (c := created4) rfl hrun hz (by decide) rfl hl').mpr
    ⟨hio.2, by decide, .inr (.inl (by rw [hio.1]; decide))⟩
  rw [← hl]
  exact ⟨l, l', hrun, hl', h⟩

/-- The pass after that watcher is stopped leaves the removal of its poll in the ring. -/
theorem changes_reach_kernel_stopped : ∃ l₁ l₂ l' : Loop Bool ℤ Kernel,
    Runs env4 timing4 loop4 [.other ((loop4.evIoSet (.user true) 3 evRead).evIoStart (.user true)),
      .pass (nowait4 [.consumed 2]), .other l₁] l₂ ∧
    pass env4 timing4 (nowait4 []) l₂ = some l' ∧ l'.kernel.sq.toSubmit ≠ 0 ∧
    .pollRemove 3 0 ∈ l'.kernel.asked ∧ .pollRemove 3 0 ∉ l'.kernel.sq.consumed := by
  obtain ⟨l, hl⟩ : ∃ l, l = (loop4.evIoSet (.user true) 3 evRead).evIoStart (.user true) := ⟨_, rfl⟩
  have hend : ((pass env4 timing4 (nowait4 [.consumed 2]) l).bind fun l =>
      (pass env4 timing4 (nowait4 []) (l.evIoStop (.user true))).map fun l =>
        (l.kernel.sq.toSubmit, l.kernel.asked, l.kernel.sq.consumed)) =
      some (1, [.pollAdd 9 0 0x2001, .pollAdd 3 0 0x2001, .pollRemove 3 0],
        [.pollAdd 9 0 0x2001, .pollAdd 3 0 0x2001]) := by
    rw [hl]
    decide +kernel
  obtain ⟨l₁, h₁, hend⟩ := Option.bind_eq_some_iff.mp hend
  obtain ⟨l', h', hend⟩ := Option.map_eq_some_iff.mp hend
  obtain ⟨hts, hasked, hcons⟩ : l'.kernel.sq.toSubmit = 1 ∧ l'.kernel.asked = _ ∧ l'.kernel.sq.consumed = _ := by
    simpa using hend
  refine ⟨l₁.evIoStop (.user true), l₁.evIoStop (.user true), l', ?_, h', ?_, ?_, ?_⟩
  · rw [← hl]
    refine .cons (.other ?_) (.cons (.pass h₁) (.cons (.other (kernel_evIoStop ..)) (.nil _)))
    rw [hl]
    rfl
  · rw [hts]
    decide
  · rw [hasked]
    decide
  · rw [hcons]
    decide

end Uring

end Qev
