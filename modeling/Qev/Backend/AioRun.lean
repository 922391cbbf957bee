/-
# Runs of the linuxaio backend

What is in the ring is parsed once, and a completion of the current generation puts its
fd back into `fdchanges`. So an fd that a watcher wants something of is found after every
poll of every run (`linuxaio_loses_no_fd`).
-/
import Qev.Backend.AioPlaces

namespace Qev

open Lib

namespace Loop

open Aio Epoll

variable {U T : Type} [DecidableEq U] {l l' : Loop U T Aio.Kernel} {fd : ℕ} {rest : List ℕ} {un : List Completion}
  {lost : ℕ → Prop}

/-! ### Completions -/

section

omit [DecidableEq U]

/-- A completion that says nothing of where its fd stands. -/
theorem Polling.skip {c : Completion} (h : Polling rest (c :: un) l)
    (hc : c.gen = l.epollView.tag c.fd → (l.fds.anfds c.fd).events = 0) : Polling rest un l := by
  refine ⟨h.tracked, ⟨h.keeping.bits, h.keeping.regs, h.keeping.free, h.keeping.small, fun fd he hl => ?_⟩, h.settled⟩
  obtain ⟨hb, hp⟩ := h.keeping.told fd he hl
  refine ⟨hb, hp.imp_right (Or.imp_right (Or.imp_left ?_))⟩
  rintro ⟨c', hin, hfd, hgen⟩
  rcases List.mem_cons.mp hin with rfl | hin
  · rw [← hfd] at hgen he
    exact absurd (hc hgen) he
  · exact ⟨c', hin, hfd, hgen⟩

end

/-- What parsing leaves alone. -/
structure Unread (l l' : Loop U T Aio.Kernel) : Prop where
  ring : l'.kernel.ring = l.kernel.ring
  submits : l'.kernel.submits = l.kernel.submits

theorem unread_parse (l : Loop U T Aio.Kernel) (c : Completion) : Unread l (linuxaioParseEvent l c) := by
  unfold linuxaioParseEvent
  split
  · obtain ⟨p, hp, -⟩ := l.fdEvent_eq c.fd ((got c.res).setWidth 32)
    rw [hp]
    exact ⟨rfl, rfl⟩
  · exact ⟨rfl, rfl⟩

/-- A completion is parsed. -/
theorem Polling.parse {c : Completion} (h : Polling rest (c :: un) l) : Polling rest un (linuxaioParseEvent l c) := by
  unfold linuxaioParseEvent
  by_cases hgen : c.gen = l.epollView.tag c.fd
  · rw [if_pos hgen]
    obtain ⟨p, hp, -⟩ := l.fdEvent_eq c.fd ((got c.res).setWidth 32)
    rw [hp]
    have h₁ : Polling rest (c :: un) ({ l with pend := p } : Loop U T Aio.Kernel) := h.congr rfl ⟨rfl, rfl, rfl, rfl⟩
    exact (h₁.rearm c.fd).skip fun _ => events_linuxaioFdRearm _ c.fd
  · rw [if_neg hgen]
    exact h.skip fun hc => absurd hc hgen

theorem Polling.parseAll (cs : List Completion) (h : Polling rest (cs ++ un) l) :
    Polling rest un (cs.foldl linuxaioParseEvent l) ∧ Unread l (cs.foldl linuxaioParseEvent l) := by
  induction cs generalizing l with
  | nil => exact ⟨h, rfl, rfl⟩
  | cons c cs ih =>
    obtain ⟨h₁, hu⟩ := ih (Polling.parse h)
    have hc := unread_parse l c
    exact ⟨h₁, hu.ring.trans hc.ring, hu.submits.trans hc.submits⟩

theorem Ready.fromRing (h : Ready l) : Ready l.linuxaioGetEventsFromRing.1 := by
  by_cases he : l.kernel.ring.head = l.kernel.ring.tail
  · unfold linuxaioGetEventsFromRing
    dsimp only
    rw [if_pos he]
    exact h
  · rw [linuxaioGetEventsFromRing_eq l he]
    obtain ⟨hp, hs⟩ := h
    obtain ⟨h₁, hu⟩ := Polling.parseAll l.kernel.ring.unread
      (show Polling _ (l.kernel.ring.unread ++ []) l by rw [List.append_nil]; exact hp)
    generalize l.kernel.ring.unread.foldl linuxaioParseEvent l = l₁ at h₁ hu
    have hnil : l₁.readAll.kernel.ring.unread = [] := by
      refine List.eq_nil_of_length_eq_zero ((Ring.unread_length _).trans ?_)
      show (l₁.kernel.ring.tail + l₁.kernel.ring.nr - l₁.kernel.ring.tail) % l₁.kernel.ring.nr = 0
      rw [Nat.add_sub_cancel_left, Nat.mod_self]
    refine ⟨?_, hu.submits.trans hs⟩
    rw [hnil]
    exact h₁.congr rfl ⟨rfl, rfl, rfl, rfl⟩

theorem mem_or_mem_eraseIdx {A : Type} {a b : A} {as : List A} {i : ℕ} (h : a ∈ as) (hb : as[i]? = some b) :
    a = b ∨ a ∈ as.eraseIdx i := by
  obtain ⟨hi, rfl⟩ := List.getElem?_eq_some_iff.mp hb
  obtain ⟨j, hj, rfl⟩ := List.mem_iff_getElem.mp h
  by_cases hij : j = i
  · left
    simp only [hij]
  · exact .inr (List.mem_eraseIdx_iff_getElem.mpr ⟨j, hj, hij, rfl⟩)

section

omit [DecidableEq U]

/-- A request in flight becomes a completion. -/
theorem Keeping.complete (h : Keeping rest l.kernel.ring.unread lost l) {c : ℕ × BitVec 32}
    (hc : complete l c = some l') :
    Keeping rest l'.kernel.ring.unread lost l' ∧ l'.fds = l.fds ∧ l'.kernel.submits = l.kernel.submits := by
  unfold Loop.complete at hc
  cases hr : l.kernel.inflight[c.1]? with
  | none => simp [hr] at hc
  | some r =>
    cases hp : l.kernel.ring.post ⟨r.fd, r.gen, c.2⟩ with
    | none => simp [hr, hp] at hc
    | some ring =>
      simp only [hr, hp, Option.bind_eq_bind, Option.bind_some, Option.some.injEq] at hc
      rw [← hc]
      refine ⟨?_, rfl, rfl⟩
      show Keeping rest ring.unread lost _
      rw [Ring.unread_post hp]
      refine ⟨h.bits, h.regs, h.free, h.small, fun fd he hl => ?_⟩
      obtain ⟨hb, hpl⟩ := h.told fd he hl
      refine ⟨hb, ?_⟩
      rcases hpl with hpl | hpl | ⟨c', hin, hpl⟩ | hpl
      · exact .inl hpl
      · rcases mem_or_mem_eraseIdx hpl hr with heq | hin
        · refine .inr (.inr (.inl ⟨_, List.mem_append_right _ (List.mem_singleton_self _), ?_⟩))
          rw [← heq]
          exact ⟨rfl, rfl⟩
        · exact .inr (.inl hin)
      · exact .inr (.inr (.inl ⟨c', List.mem_append_left _ hin, hpl⟩))
      · exact .inr (.inr (.inr hpl))

theorem Ready.complete {cs : List (ℕ × BitVec 32)} (h : Ready l) (hc : cs.foldlM complete l = some l') : Ready l' := by
  induction cs generalizing l with
  | nil =>
    cases hc
    exact h
  | cons c cs ih =>
    rw [List.foldlM_cons] at hc
    obtain ⟨l₁, h₁, hc⟩ := Option.bind_eq_some_iff.mp hc
    refine ih ?_ hc
    obtain ⟨hp, hs⟩ := h
    obtain ⟨hk, hfds, hsub⟩ := hp.keeping.complete h₁
    exact ⟨⟨by rw [hfds]; exact hp.tracked, by rw [hfds]; exact hk, by rw [hfds]; exact hp.settled⟩, hsub.trans hs⟩

end

theorem Ready.getEventsLoop {want : ℕ} {gas : List Gotten} (h : Ready l)
    (hg : linuxaioGetEventsLoop want gas l = some l') : Ready l' := by
  induction gas generalizing l with
  | nil => cases hg
  | cons a gas ih =>
    simp only [linuxaioGetEventsLoop] at hg
    obtain ⟨l₁, h₁, hg⟩ := Option.bind_eq_some_iff.mp hg
    have hr := h.complete h₁
    cases ha : a.result with
    | none =>
      rw [ha] at hg
      exact ih hr hg
    | some res =>
      rw [ha] at hg
      dsimp only at hg
      split at hg
      · rename_i hres
        have htake : res ≤ l₁.kernel.ring.unread.length := by
          rw [← hres.2]
          exact List.length_take_le' ..
        obtain ⟨l₂, hl₂⟩ : ∃ l₂ : Loop U T Aio.Kernel,
          l₂ = { l₁ with kernel := { l₁.kernel with ring := l₁.kernel.ring.take res } } := ⟨_, rfl⟩
        rw [← hl₂] at hg
        have hun : l₁.kernel.ring.unread = l₁.kernel.ring.unread.take res ++ l₂.kernel.ring.unread := by
          rw [hl₂]
          show _ = _ ++ (l₁.kernel.ring.take res).unread
          rw [Ring.unread_take htake, List.take_append_drop]
        obtain ⟨hp, hs⟩ := hr
        rw [hun] at hp
        have h₂ : Polling [] (l₁.kernel.ring.unread.take res ++ l₂.kernel.ring.unread) l₂ :=
          hp.congr (by rw [hl₂]) (by rw [hl₂]; exact ⟨rfl, rfl, rfl, rfl⟩)
        have hs₂ : l₂.kernel.submits = [] := by rw [hl₂]; exact hs
        split at hg
        · rename_i h0
          cases hg
          refine ⟨?_, hs₂⟩
          rw [h0, List.take_zero, List.nil_append] at h₂
          exact h₂
        · obtain ⟨h₃, hu⟩ := h₂.parseAll
          have hready : Ready ((l₁.kernel.ring.unread.take res).foldl linuxaioParseEvent l₂) :=
            ⟨by rw [hu.ring]; exact h₃, hu.submits.trans hs₂⟩
          split at hg
          · cases hg
            exact hready.fromRing
          · split at hg
            · cases hg
              exact hready
            · exact ih hready hg
      · cases hg

theorem Ready.getEvents {timeout : Bool} {gas : List Gotten} (h : Ready l)
    (hg : l.linuxaioGetEvents timeout gas = some l') : Ready l' := by
  unfold linuxaioGetEvents at hg
  split at hg
  · have hring := h.fromRing
    split at hg
    · rename_i l₁ heq
      cases hg
      rw [heq] at hring
      exact hring
    · rename_i l₁ heq
      rw [heq] at hring
      split at hg
      · exact hring.getEventsLoop hg
      · cases hg
        exact hring
  · exact h.getEventsLoop hg

/-- After a poll each fd stands somewhere, was killed or is queued with no mask told. -/
theorem Polling.poll {timeout : Bool} {sas : List Submitted} {gas : List Gotten}
    (h : Polling l.kernel.submits l.kernel.ring.unread l) (hp : l.linuxaioPoll timeout sas gas = some l') :
    Ready l' ∨ Switched l' := by
  unfold linuxaioPoll at hp
  obtain ⟨r, hr, hp⟩ := Option.bind_eq_some_iff.mp hp
  rcases h.submit sas hr with ⟨hgo, hready⟩ | ⟨hgo, hend⟩
  · rw [if_pos hgo] at hp
    exact .inl (hready.getEvents hp)
  · rw [hgo] at hp
    cases hp
    exact hend

/-- Where an fd is that a watcher wants something of: in flight with the watchers' mask and the current
generation, completed with that generation, handed over to epoll, or queued with no mask told. -/
def Found (l : Loop U T Aio.Kernel) (fd : ℕ) : Prop :=
  ⟨fd, l.epollView.tag fd, kernelMask (l.fds.wanted fd)⟩ ∈ l.kernel.inflight ∨
    (∃ c ∈ l.kernel.ring.unread, c.fd = fd ∧ c.gen = l.epollView.tag fd) ∨
    ((l.kernel.iocbs fd).reqprio < 0 ∧
      (l.kernel.epoll.set fd = some ⟨kernelMask (l.fds.wanted fd), fd, l.epollView.tag fd⟩ ∨
        (l.fds.anfds fd).emask = evEmaskEperm)) ∨
    (fd ∈ l.fds.fdchanges ∧ (l.fds.anfds fd).events = 0)

section

omit [DecidableEq U]

theorem found_of_polled (h : Ready l ∨ Switched l) {w : IoW U} (hw : l.fds.active w ≠ 0) (he : l.fds.events w ≠ 0) :
    Found l (l.fds.fd w) := by
  have htr : l.fds.Tracked l.fds.fdchanges := h.elim (fun h => h.1.tracked) Switched.tracked
  have hwant := htr.wanted_ne hw he
  have hhead : (l.fds.anfds (l.fds.fd w)).head ≠ [] := List.ne_nil_of_mem ((htr.linked.mem _ w).mpr ⟨hw, rfl⟩)
  generalize l.fds.fd w = fd at hwant hhead
  unfold Found
  by_cases h0 : (l.fds.anfds fd).events = 0
  · refine .inr (.inr (.inr ⟨?_, h0⟩))
    by_contra hin
    exact hwant ((htr.clean fd hin).symm.trans h0)
  · rcases h with ⟨h, -⟩ | h
    · have hin : fd ∉ l.fds.fdchanges := fun hin => (h.settled fd hin).elim h0 hhead
      obtain ⟨-, hp⟩ := h.keeping.told fd h0 hhead
      rw [← htr.clean fd hin]
      rcases hp with ⟨hin, -⟩ | hp | hp | hp
      · cases hin
      · exact .inl hp
      · exact .inr (.inl hp)
      · exact .inr (.inr (.inl hp))
    · exact ((h.none fd).elim h0 hhead).elim

end

/-- What is parsed changes nothing if it is of another generation, and else rearms its fd. -/
theorem parse_spec (l : Loop U T Aio.Kernel) (c : Completion) :
    (c.gen ≠ l.epollView.tag c.fd → linuxaioParseEvent l c = l) ∧
    (c.gen = l.epollView.tag c.fd → ((linuxaioParseEvent l c).fds.anfds c.fd).events = 0 ∧
      ((linuxaioParseEvent l c).kernel.iocbs c.fd).buf = 0 ∧
      ((∀ fd, (l.fds.anfds fd).reify ≠ 0 → fd ∈ l.fds.fdchanges) →
        c.fd ∈ (linuxaioParseEvent l c).fds.fdchanges)) := by
  refine ⟨fun hgen => if_neg hgen, fun hgen => ?_⟩
  unfold linuxaioParseEvent
  rw [if_pos hgen]
  obtain ⟨p, hp, -⟩ := l.fdEvent_eq c.fd ((got c.res).setWidth 32)
  rw [hp]
  refine ⟨events_linuxaioFdRearm _ c.fd, ?_, fun hq => ?_⟩
  · rw [buf_linuxaioFdRearm, if_pos rfl]
  · refine Fds.mem_fdChange (s := l.fds.setFd c.fd { l.fds.anfds c.fd with events := 0 }) (fun fd hr => hq fd ?_) c.fd
      evAnfdReify
    by_cases hfd : fd = c.fd
    · rw [hfd] at hr ⊢
      simpa [Fds.setFd] using hr
    · simpa [Fds.setFd, hfd] using hr

end Loop

/-! ### Runs -/

namespace Aio

open Loop

/-- A loop, with the fds that were killed and of which the backend has not been told anything since. -/
structure System (U T : Type) where
  loop : Loop U T Aio.Kernel
  lost : ℕ → Bool

variable {U T : Type} [DecidableEq U]

/-- The loop before its first watcher, when the kernel answers so for an fd that is not in the epoll set and has a
ring of so many cells. -/
def System.init [Inhabited U] [Zero T] (noinotify signalfd notimerfd ringValid : Bool) (answers : ℕ → Epoll.Answer)
    (nr : ℕ) (cells : ℕ → Completion) : System U T where
  loop := .init .linuxaio noinotify signalfd notimerfd
    ⟨.init (Epoll.accepting answers), fun _ => .zero, 0, [], [], .fresh nr cells, ringValid, 0⟩
  lost := fun _ => false

/-- The user's calls, what the kernel completes, and the loop's `fd_reify`, alone or before `linuxaio_poll`. A
request of an earlier generation may also be gone without a completion, since it was cancelled. -/
inductive Act (U : Type)
  | ioSet (w : IoW U) (fd : ℕ) (events : Events)
  | ioStart (w : IoW U)
  | ioStop (w : IoW U)
  | ioModify (w : IoW U) (events : Events)
  | complete (c : ℕ × BitVec 32)
  | cancelled (i : ℕ)
  | fdReify
  | poll (timeout : Bool) (sas : List Submitted) (gas : List Gotten)

/-- A watcher is started on a lost fd only if it, or another one since, was set. -/
def System.startable (s : System U T) (w : IoW U) : Prop :=
  s.lost (s.loop.fds.fd w) = true →
    (s.loop.fds.events w).getLsbD 7 = true ∨ (s.loop.fds.anfds (s.loop.fds.fd w)).reify.getLsbD 7 = true

instance (s : System U T) (w : IoW U) : Decidable (s.startable w) := inferInstanceAs (Decidable (_ → _))

def System.step (s : System U T) : Act U → Option (System U T)
  | .ioSet w fd events =>
    if s.loop.fds.active w ≠ 0 then none else some { s with loop := s.loop.evIoSet w fd events }
  | .ioStart w =>
    if s.loop.fds.active w ≠ 0 then some s
    else if Interest.legal (s.loop.fds.events w) ∧ s.startable w then some { s with loop := s.loop.evIoStart w }
    else none
  | .ioStop w => some { s with loop := s.loop.evIoStop w }
  | .ioModify w events => some { s with loop := s.loop.evIoModify w events }
  | .complete c => (s.loop.complete c).map fun l => { s with loop := l }
  | .cancelled i => do
    let r ← s.loop.kernel.inflight[i]?
    if r.gen ≠ s.loop.epollView.tag r.fd then
      some { s with loop :=
        { s.loop with kernel := { s.loop.kernel with inflight := s.loop.kernel.inflight.eraseIdx i } } }
    else none
  | .fdReify =>
    if s.loop.backend = .linuxaio then some ⟨s.loop.fdReify linuxaioModify, fun _ => false⟩ else none
  | .poll timeout sas gas =>
    if s.loop.backend = .linuxaio then
      ((s.loop.fdReify linuxaioModify).linuxaioPoll timeout sas gas).map fun l =>
        ⟨l, fun fd => (l.fds.anfds fd).events ≠ 0 ∧ (l.fds.anfds fd).head = []⟩
    else none

abbrev System.Runs (s : System U T) (acts : List (Act U)) (t : System U T) : Prop :=
  Run (fun s a t => System.step s a = some t) s acts t

/-- As long as the backend is linuxaio. -/
def System.Inv (s : System U T) : Prop :=
  s.loop.backend = .linuxaio → Reifying s.loop.fds.fdchanges (fun fd => s.lost fd = true) s.loop

section

omit [DecidableEq U]

theorem System.inv_init [Inhabited U] [Zero T] (noinotify signalfd notimerfd ringValid : Bool)
    (answers : ℕ → Epoll.Answer) (nr : ℕ) (cells : ℕ → Completion) :
    (init noinotify signalfd notimerfd ringValid answers nr cells : System U T).Inv := by
  refine fun _ => ⟨Fds.tracked_fresh (fun _ => rfl) (fun _ => rfl) _, ⟨fun _ => BitVec.zero_and,
    ⟨Epoll.accepts_accepting answers, fun _ _ hr => ?_⟩, fun _ _ => rfl, fun _ hb => absurd rfl hb,
    fun _ he => absurd rfl he⟩, fun _ hl => ?_⟩
  · cases hr
  · cases hl

/-- The user's calls leave the backend alone, and an fd that is lost without watchers or flagged. -/
theorem System.Inv.user {s : System U T} (h : s.Inv) {l : Loop U T Aio.Kernel} (hb : l.backend = s.loop.backend)
    (hk : l.kernel = s.loop.kernel) (hf : Fds.Still s.loop.fds l.fds)
    (htr : s.loop.fds.Tracked s.loop.fds.fdchanges → l.fds.Tracked l.fds.fdchanges)
    (hflag : Fds.Flagged s.loop.fds l.fds)
    (hnil : ∀ fd, s.lost fd = true → (s.loop.fds.anfds fd).head = [] →
      (l.fds.anfds fd).head = [] ∨ (l.fds.anfds fd).reify.getLsbD 7 = true) : Inv { s with loop := l } := by
  intro hlin
  have h := h (hb.symm.trans hlin)
  refine ⟨htr h.tracked, ?_, fun fd hl he => ?_⟩
  · show Keeping l.kernel.submits l.kernel.ring.unread _ l
    rw [hk]
    exact h.keeping.still hf hk
  · rw [hf.events] at he
    rcases h.lost fd hl he with hn | hbit
    · exact hnil fd hl hn
    · exact .inr (hflag fd hbit)

end

theorem System.inv_step {s t : System U T} {a : Act U} (h : s.Inv) (hs : s.step a = some t) : t.Inv := by
  cases a with
  | ioSet w fd events =>
    simp only [step] at hs
    split at hs
    · cases hs
    · rename_i hw
      cases hs
      exact h.user rfl rfl ⟨fun _ => rfl, fun _ => rfl, fun _ => rfl⟩ (fun htr => htr.evIoSet (not_not.mp hw) fd events)
        (fun _ h => h) fun _ _ hn => .inl hn
  | ioStart w =>
    simp only [step] at hs
    split at hs
    · cases hs
      exact h
    · rename_i hw
      split at hs
      · rename_i hok
        cases hs
        obtain ⟨hlegal, hstart⟩ := hok
        have hfds : (s.loop.evIoStart w).fds = s.loop.fds.start w := by rw [fds_evIoStart, if_neg hw]
        refine h.user ?_ (kernel_evIoStart ..) (still_evIoStart s.loop w) (fun htr => ?_) ?_ fun fd hl hn => ?_
        · unfold evIoStart
          rw [if_neg hw]
          rfl
        · rw [hfds]
          exact htr.start (not_not.mp hw) hlegal
        · rw [hfds]
          exact Fds.flagged_start s.loop.fds w
        · rw [hfds]
          by_cases hfd : fd = s.loop.fds.fd w
          · rw [hfd] at hl ⊢
            refine .inr ?_
            rcases hstart hl with hset | hbit
            · exact Fds.start_flags s.loop.fds w hset
            · exact Fds.flagged_start s.loop.fds w _ hbit
          · refine .inl ((Fds.head_fdChange (s.loop.fds.wlistAdd w) ..).trans ?_)
            refine Eq.trans ?_ hn
            exact congrArg ANFD.head (Function.update_of_ne hfd ..)
      · cases hs
  | ioStop w =>
    cases hs
    by_cases hw : s.loop.fds.active w = 0
    · have hfds : (s.loop.evIoStop w).fds = s.loop.fds := by rw [fds_evIoStop, if_pos hw]
      refine h.user ?_ (kernel_evIoStop ..) (still_evIoStop s.loop w) (fun htr => by rw [hfds]; exact htr)
        (by rw [hfds]; exact fun _ h => h) fun fd _ hn => by rw [hfds]; exact .inl hn
      unfold evIoStop
      rw [if_pos (by exact hw)]
      rfl
    · have hfds : (s.loop.evIoStop w).fds = s.loop.fds.stop w := by rw [fds_evIoStop, if_neg hw]
      refine h.user ?_ (kernel_evIoStop ..) (still_evIoStop s.loop w) (fun htr => by rw [hfds]; exact htr.stop w)
        (by rw [hfds]; exact Fds.flagged_stop s.loop.fds w) fun fd _ hn => .inl ?_
      · unfold evIoStop
        rw [if_neg (by exact hw)]
        rfl
      · rw [hfds, Fds.head_stop, hn]
        split
        · rfl
        · rfl
  | ioModify w events =>
    cases hs
    refine h.user rfl rfl (Fds.still_modify ..) (fun htr => htr.modify w events) (Fds.flagged_modify s.loop.fds w events) fun fd _ hn =>
      .inl ?_
    refine Eq.trans ?_ hn
    show ((s.loop.fds.modify w events).anfds fd).head = _
    unfold Fds.modify
    dsimp only
    split
    · rfl
    · split
      · exact Fds.head_fdChange ..
      · rfl
  | complete c =>
    obtain ⟨l, hl, rfl⟩ := Option.map_eq_some_iff.mp hs
    intro hlin
    have hb : l.backend = s.loop.backend := by
      unfold Loop.complete at hl
      cases hr : s.loop.kernel.inflight[c.1]? with
      | none => simp [hr] at hl
      | some r =>
        cases hp : s.loop.kernel.ring.post ⟨r.fd, r.gen, c.2⟩ with
        | none => simp [hr, hp] at hl
        | some ring =>
          simp only [hr, hp, Option.bind_eq_bind, Option.bind_some, Option.some.injEq] at hl
          rw [← hl]
    have h := h (hb.symm.trans hlin)
    obtain ⟨hk, hfds, hsub⟩ := h.keeping.complete hl
    refine ⟨by rw [hfds]; exact h.tracked, ?_, by rw [hfds]; exact h.lost⟩
    show Keeping l.kernel.submits l.kernel.ring.unread _ l
    rw [hsub]
    exact hk
  | cancelled i =>
    simp only [step] at hs
    obtain ⟨r, hr, hs⟩ := Option.bind_eq_some_iff.mp hs
    split at hs
    · rename_i hstale
      cases hs
      intro hlin
      have h := h hlin
      refine ⟨h.tracked, ⟨h.keeping.bits, h.keeping.regs, h.keeping.free, h.keeping.small, fun fd he hl => ?_⟩, h.lost⟩
      obtain ⟨hb, hp⟩ := h.keeping.told fd he hl
      refine ⟨hb, hp.imp_right (Or.imp_left fun hin => ?_)⟩
      refine (mem_or_mem_eraseIdx hin hr).resolve_left fun heq => hstale ?_
      rw [← heq]
    · cases hs
  | fdReify =>
    simp only [step] at hs
    split at hs
    · rename_i hlin
      cases hs
      obtain ⟨hch, htr, hk⟩ := (h hlin).reify
      refine fun _ => ⟨by rw [hch]; exact htr, hk.weaken fun _ _ hf => hf.elim, fun _ hl => ?_⟩
      cases hl
    · cases hs
  | poll timeout sas gas =>
    simp only [step] at hs
    split at hs
    · rename_i hlin
      obtain ⟨l, hl, rfl⟩ := Option.map_eq_some_iff.mp hs
      intro hlin'
      rcases (h hlin).polling.poll hl with ⟨hp, hsub⟩ | hsw
      · refine ⟨hp.tracked, ?_, fun fd hlost _ => .inl (of_decide_eq_true hlost).2⟩
        show Keeping l.kernel.submits _ _ _
        rw [hsub]
        exact hp.keeping.weaken fun fd he hn => decide_eq_true ⟨he, hn⟩
      · rw [show (⟨l, fun fd => decide ((l.fds.anfds fd).events ≠ 0 ∧ (l.fds.anfds fd).head = [])⟩ :
          System U T).loop.backend = _ from hsw.backend] at hlin'
        cases hlin'
    · cases hs

/-- In every run, after a poll an fd that a watcher wants something of is in flight with the watchers' mask and
the current generation, or completed with it, or handed over to epoll, or queued with no mask told; reading
the ring parses each completion in it once, oldest first; and what is parsed changes nothing if it is of another
generation, and else rearms its fd. -/
theorem linuxaio_loses_no_fd [Inhabited U] [Zero T] (noinotify signalfd notimerfd ringValid : Bool)
    (answers : ℕ → Epoll.Answer) (nr : ℕ) (cells : ℕ → Completion) {acts : List (Act U)} {s t : System U T}
    (hrun : System.Runs (.init noinotify signalfd notimerfd ringValid answers nr cells) acts s) {timeout : Bool}
    {sas : List Submitted} {gas : List Gotten} (ht : s.step (.poll timeout sas gas) = some t) :
    (∀ w, t.loop.fds.active w ≠ 0 → t.loop.fds.events w ≠ 0 → Found t.loop (t.loop.fds.fd w)) ∧
    (∀ l : Loop U T Aio.Kernel, l.kernel.ring.head ≠ l.kernel.ring.tail →
      l.linuxaioGetEventsFromRing = ((l.kernel.ring.unread.foldl linuxaioParseEvent l).readAll, true)) ∧
    ∀ (l : Loop U T Aio.Kernel) (c : Completion),
      (c.gen ≠ l.epollView.tag c.fd → linuxaioParseEvent l c = l) ∧
      (c.gen = l.epollView.tag c.fd → ((linuxaioParseEvent l c).fds.anfds c.fd).events = 0 ∧
        ((linuxaioParseEvent l c).kernel.iocbs c.fd).buf = 0 ∧
        ((∀ fd, (l.fds.anfds fd).reify ≠ 0 → fd ∈ l.fds.fdchanges) →
          c.fd ∈ (linuxaioParseEvent l c).fds.fdchanges)) := by
  refine ⟨fun w hw he => ?_, linuxaioGetEventsFromRing_eq, parse_spec⟩
  have hinv : s.Inv := Run.invariant (fun _ _ _ h hs => System.inv_step h hs) hrun
    (System.inv_init noinotify signalfd notimerfd ringValid answers nr cells)
  simp only [System.step] at ht
  split at ht
  · rename_i hlin
    obtain ⟨l, hl, rfl⟩ := Option.map_eq_some_iff.mp ht
    exact found_of_polled ((hinv hlin).polling.poll hl) hw he
  · cases ht

/-- An fd whose iocb the kernel takes, and one that it refuses. -/
theorem linuxaio_loses_no_fd_two : ∃ s t : System Bool ℤ,
    System.Runs (.init true false true true (fun _ => .served) 8 fun _ => ⟨0, 0, 0⟩)
      [.ioSet (.user false) 3 evRead, .ioStart (.user false), .ioSet (.user true) 4 evRead, .ioStart (.user true)] s ∧
    s.step (.poll false [.accepted 1, .einval] []) = some t ∧ Found t.loop 3 ∧ Found t.loop 4 := by
  obtain ⟨s, t, hrun, ht, h₁, h₂, h₃, h₄, h₅, h₆⟩ : ∃ s t : System Bool ℤ,
      System.Runs (.init true false true true (fun _ => .served) 8 fun _ => ⟨0, 0, 0⟩)
        [.ioSet (.user false) 3 evRead, .ioStart (.user false), .ioSet (.user true) 4 evRead, .ioStart (.user true)] s ∧
      s.step (.poll false [.accepted 1, .einval] []) = some t ∧
      t.loop.fds.active (.user false) ≠ 0 ∧ t.loop.fds.events (.user false) ≠ 0 ∧ t.loop.fds.fd (.user false) = 3 ∧
      t.loop.fds.active (.user true) ≠ 0 ∧ t.loop.fds.events (.user true) ≠ 0 ∧ t.loop.fds.fd (.user true) = 4 := by
    refine ⟨_, _, Run.iff_execFrom.mpr rfl, rfl, ?_, ?_, ?_, ?_, ?_, ?_⟩
    all_goals decide
  have h := (linuxaio_loses_no_fd true false true true _ 8 _ hrun ht).1
  exact ⟨s, t, hrun, ht, h₃ ▸ h _ h₁ h₂, h₆ ▸ h _ h₄ h₅⟩

/-- A watcher that waits for nothing, which the manual allows: its fd is not submitted, nor handed to epoll, nor
queued. -/
theorem linuxaio_loses_no_fd_idle : ∃ s t : System Bool ℤ,
    System.Runs (.init true false true true (fun _ => .served) 8 fun _ => ⟨0, 0, 0⟩)
      [.ioSet (.user false) 3 0, .ioStart (.user false)] s ∧
    s.step (.poll false [] []) = some t ∧ t.loop.fds.active (.user false) ≠ 0 ∧ t.loop.fds.fd (.user false) = 3 ∧
    t.loop.kernel.inflight = [] ∧ t.loop.kernel.ring.unread = [] ∧ 0 ≤ (t.loop.kernel.iocbs 3).reqprio ∧
    t.loop.fds.fdchanges = [] := by
  refine ⟨_, _, Run.iff_execFrom.mpr rfl, rfl, ?_, ?_, ?_, ?_, ?_, ?_⟩
  all_goals decide

end Aio

end Qev
