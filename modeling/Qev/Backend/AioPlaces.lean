/-
# Where the linuxaio backend has the fds

Whatever mask the backend was last told of an fd, the fd stands somewhere with that mask
(`Keeping`). `fd_reify` keeps that and leaves nothing lost; the submission loop takes the
queued iocbs one after the other, with what is left of them in the invariant (`Polling`),
or gives up the context and queues every fd anew.
-/
import Qev.Backend.Placement

namespace Qev

open Lib

namespace Fds

variable {W : Type} [DecidableEq W] {s : Fds W}

section

omit [DecidableEq W]

/-- The active watchers of an fd want nothing but `EV_READ` and `EV_WRITE`. -/
theorem Tracked.wanted_bits {queue : List ℕ} (h : s.Tracked queue) (fd : ℕ) :
    s.wanted fd &&& ~~~(Epoll.readBit ||| Epoll.writeBit) = 0 := by
  have hmask : ∀ w ∈ (s.anfds fd).head, (s.events w).setWidth 8 &&& ~~~(Epoll.readBit ||| Epoll.writeBit) = 0 := by
    intro w hw
    have h₁ := congrArg (BitVec.setWidth 8) (h.mask w ((h.linked.mem fd w).mp hw).1)
    rw [BitVec.setWidth_and] at h₁
    exact h₁
  unfold wanted
  generalize (s.anfds fd).head = ws at hmask
  have hfold : ∀ e : BitVec 8, e &&& ~~~(Epoll.readBit ||| Epoll.writeBit) = 0 →
      ws.foldl (fun e w => e ||| (s.events w).setWidth 8) e &&& ~~~(Epoll.readBit ||| Epoll.writeBit) = 0 := by
    induction ws with
    | nil => exact fun _ h => h
    | cons w ws ih =>
      intro e he
      refine ih (fun w hw => hmask w (List.mem_cons_of_mem _ hw)) _ ?_
      rw [BitVec.and_or_distrib_right, he, hmask w List.mem_cons_self]
      rfl
  exact hfold 0 rfl

/-- A mask is forgotten, and the fd queued. -/
theorem Tracked.forget (h : s.Tracked s.fdchanges) (fd : ℕ) (flags : BitVec 8) :
    ((s.setFd fd { s.anfds fd with events := 0 }).fdChange fd flags).Tracked
      ((s.setFd fd { s.anfds fd with events := 0 }).fdChange fd flags).fdchanges :=
  h.ask fd (a := { s.anfds fd with events := 0 }) rfl rfl rfl flags

end

end Fds

namespace Loop

open Aio Epoll

variable {U T : Type} [DecidableEq U] {l l' : Loop U T Aio.Kernel} {fd : ℕ} {rest rest' : List ℕ}
  {un un' : List Completion} {lost lost' : ℕ → Prop}

/-- Where an fd stands with the mask the backend was told: its iocb is among those still to be submitted,
its request is in flight or completed, or the epoll set has it. -/
def Placed (rest : List ℕ) (un : List Completion) (l : Loop U T Aio.Kernel) (fd : ℕ) : Prop :=
  (fd ∈ rest ∧ (l.kernel.iocbs fd).buf = kernelMask (l.fds.anfds fd).events ∧
      (l.kernel.iocbs fd).gen = l.epollView.tag fd) ∨
    ⟨fd, l.epollView.tag fd, kernelMask (l.fds.anfds fd).events⟩ ∈ l.kernel.inflight ∨
    (∃ c ∈ un, c.fd = fd ∧ c.gen = l.epollView.tag fd) ∨
    ((l.kernel.iocbs fd).reqprio < 0 ∧
      (l.kernel.epoll.set fd = some ⟨kernelMask (l.fds.anfds fd).events, fd, l.epollView.tag fd⟩ ∨
        (l.fds.anfds fd).emask = evEmaskEperm))

/-- Each fd told a mask stands somewhere with it, unless it is lost: killed and not told anything since. -/
structure Keeping (rest : List ℕ) (un : List Completion) (lost : ℕ → Prop) (l : Loop U T Aio.Kernel) : Prop where
  bits : ∀ fd, (l.fds.anfds fd).events &&& ~~~(readBit ||| writeBit) = 0
  regs : l.epollView.Registered
  free : ∀ fd, 0 ≤ (l.kernel.iocbs fd).reqprio → l.kernel.epoll.set fd = none
  small : ∀ fd, (l.kernel.iocbs fd).buf ≠ 0 → fd < l.kernel.iocbpmax
  told : ∀ fd, (l.fds.anfds fd).events ≠ 0 → ¬ lost fd → (l.kernel.iocbs fd).buf ≠ 0 ∧ Placed rest un l fd

/-- All that says where an fd stands is the same. -/
structure SameAt (fd : ℕ) (l l' : Loop U T Aio.Kernel) : Prop where
  events : (l'.fds.anfds fd).events = (l.fds.anfds fd).events
  egen : (l'.fds.anfds fd).egen = (l.fds.anfds fd).egen
  emask : (l'.fds.anfds fd).emask = (l.fds.anfds fd).emask
  iocb : l'.kernel.iocbs fd = l.kernel.iocbs fd
  set : l'.kernel.epoll.set fd = l.kernel.epoll.set fd

section

omit [DecidableEq U]

theorem SameAt.tag (h : SameAt fd l l') : l'.epollView.tag fd = l.epollView.tag fd :=
  congrArg (BitVec.ofNat 32) h.egen

theorem Placed.mono (h : Placed rest un l fd) (hs : SameAt fd l l') (hrest : fd ∈ rest → fd ∈ rest')
    (hin : ∀ r ∈ l.kernel.inflight, r ∈ l'.kernel.inflight) (hun : ∀ c ∈ un, c ∈ un') : Placed rest' un' l' fd := by
  unfold Placed at *
  rw [hs.tag, hs.events, hs.emask, hs.iocb, hs.set]
  rcases h with ⟨h₁, h₂⟩ | h | ⟨c, hc, h⟩ | h
  · exact .inl ⟨hrest h₁, h₂⟩
  · exact .inr (.inl (hin _ h))
  · exact .inr (.inr (.inl ⟨c, hun c hc, h⟩))
  · exact .inr (.inr (.inr h))

theorem kernelMask_ne {m : BitVec 8} (hbits : m &&& ~~~(readBit ||| writeBit) = 0) (hm : m ≠ 0) :
    kernelMask m ≠ 0 := by
  revert m
  decide

/-- What leaves every fd where it stands keeps the invariant. -/
theorem Keeping.same (h : Keeping rest un lost l) (hs : ∀ fd, SameAt fd l l')
    (hk : l'.kernel.epoll = l.kernel.epoll ∧ l'.kernel.iocbpmax = l.kernel.iocbpmax ∧
      l'.kernel.inflight = l.kernel.inflight) : Keeping rest un lost l' := by
  refine ⟨fun fd => ?_, ?_, fun fd hr => ?_, fun fd hb => ?_, fun fd he hl => ?_⟩
  · rw [(hs fd).events]
    exact h.bits fd
  · exact h.regs.keeps (congrArg Epoll.Kernel.set hk.1) (congrArg Epoll.Kernel.answers hk.1)
      ⟨fun fd => (hs fd).egen, fun fd => .inl (hs fd).emask⟩
  · rw [(hs fd).iocb] at hr
    rw [(hs fd).set]
    exact h.free fd hr
  · rw [(hs fd).iocb] at hb
    rw [hk.2.1]
    exact h.small fd hb
  · rw [(hs fd).events] at he
    obtain ⟨h₁, h₂⟩ := h.told fd he hl
    rw [(hs fd).iocb]
    exact ⟨h₁, h₂.mono (hs fd) id (fun r hr => by rw [hk.2.2]; exact hr) fun _ hc => hc⟩

theorem Keeping.still (h : Keeping rest un lost l) (hf : Fds.Still l.fds l'.fds) (hk : l'.kernel = l.kernel) :
    Keeping rest un lost l' :=
  h.same (fun fd => ⟨hf.events fd, hf.egen fd, hf.emask fd, by rw [hk], by rw [hk]⟩) (by rw [hk]; exact ⟨rfl, rfl, rfl⟩)

theorem Keeping.weaken (h : Keeping rest un lost l) (hl : ∀ fd, (l.fds.anfds fd).events ≠ 0 → lost fd → lost' fd) :
    Keeping rest un lost' l :=
  ⟨h.bits, h.regs, h.free, h.small, fun fd he hn => h.told fd he fun hf => hn (hl fd he hf)⟩

/-- A step that touches one fd: it stays free for the epoll set, and if it has a mask it stands somewhere. -/
theorem Keeping.touch (h : Keeping rest un lost l) (fd : ℕ) (hs : ∀ fd', fd' ≠ fd → SameAt fd' l l')
    (hbits : (l'.fds.anfds fd).events &&& ~~~(readBit ||| writeBit) = 0) (hregs : l'.epollView.Registered)
    (hfree : 0 ≤ (l'.kernel.iocbs fd).reqprio → l'.kernel.epoll.set fd = none)
    (hmax : l.kernel.iocbpmax ≤ l'.kernel.iocbpmax)
    (hsmall : (l'.kernel.iocbs fd).buf ≠ 0 → fd < l'.kernel.iocbpmax)
    (hin : ∀ r ∈ l.kernel.inflight, r ∈ l'.kernel.inflight)
    (hrest : ∀ fd', fd' ≠ fd → fd' ∈ rest → fd' ∈ rest')
    (hun : ∀ fd', fd' ≠ fd → ∀ c ∈ un, c.fd = fd' → c ∈ un')
    (hlost : ∀ fd', fd' ≠ fd → lost fd' → lost' fd')
    (htold : (l'.fds.anfds fd).events ≠ 0 → ¬ lost' fd →
      (l'.kernel.iocbs fd).buf ≠ 0 ∧ Placed rest' un' l' fd) : Keeping rest' un' lost' l' := by
  refine ⟨fun fd' => ?_, hregs, fun fd' hr => ?_, fun fd' hb => ?_, fun fd' he hl => ?_⟩
  all_goals by_cases hfd : fd' = fd
  · rw [hfd]
    exact hbits
  · rw [(hs fd' hfd).events]
    exact h.bits fd'
  · rw [hfd] at hr ⊢
    exact hfree hr
  · rw [(hs fd' hfd).iocb] at hr
    rw [(hs fd' hfd).set]
    exact h.free fd' hr
  · rw [hfd] at hb ⊢
    exact hsmall hb
  · rw [(hs fd' hfd).iocb] at hb
    exact (h.small fd' hb).trans_le hmax
  · rw [hfd] at he hl ⊢
    exact htold he hl
  · rw [(hs fd' hfd).events] at he
    obtain ⟨h₁, h₂⟩ := h.told fd' he fun hf => hl (hlost fd' hfd hf)
    rw [(hs fd' hfd).iocb]
    refine ⟨h₁, ?_⟩
    -- only the completions of this fd say where it stands
    have h₃ : Placed rest (un.filter fun c => c.fd = fd') l fd' := by
      rcases h₂ with h₂ | h₂ | ⟨c, hc, h₂⟩ | h₂
      · exact .inl h₂
      · exact .inr (.inl h₂)
      · exact .inr (.inr (.inl ⟨c, List.mem_filter.mpr ⟨hc, by simpa using h₂.1⟩, h₂⟩))
      · exact .inr (.inr (.inr h₂))
    refine h₃.mono (hs fd' hfd) (hrest fd' hfd) hin fun c hc => ?_
    obtain ⟨hc, hcfd⟩ := List.mem_filter.mp hc
    exact hun fd' hfd c hc (by simpa using hcfd)

end

/-! ### linuxaio_modify -/

section

omit [DecidableEq U]

theorem sameAt_setIocb (l : Loop U T Aio.Kernel) (fd : ℕ) (c : Iocb) {fd' : ℕ} (hne : fd' ≠ fd) :
    SameAt fd' l (l.setIocb fd c) :=
  ⟨rfl, rfl, rfl, Function.update_of_ne hne .., rfl⟩

theorem SameAt.trans {l'' : Loop U T Aio.Kernel} (h : SameAt fd l l') (h' : SameAt fd l' l'') : SameAt fd l l'' :=
  ⟨h'.events.trans h.events, h'.egen.trans h.egen, h'.emask.trans h.emask, h'.iocb.trans h.iocb, h'.set.trans h.set⟩

theorem iocbs_setIocb (l : Loop U T Aio.Kernel) (fd : ℕ) (c : Iocb) : (l.setIocb fd c).kernel.iocbs fd = c :=
  Function.update_self ..

/-- A registration is taken away. -/
theorem registered_cleared {l l' : Loop U T Epoll.Kernel} (h : l.Registered)
    (hans : l'.kernel.answers = l.kernel.answers) (hnone : l'.kernel.set fd = none)
    (hset : ∀ fd', fd' ≠ fd → l'.kernel.set fd' = l.kernel.set fd')
    (hanfd : ∀ fd', fd' ≠ fd → l'.fds.anfds fd' = l.fds.anfds fd') : l'.Registered := by
  refine ⟨fun n => by rw [hans]; exact h.accepts n, fun fd' r hr => ?_⟩
  have hne : fd' ≠ fd := fun he => by
    rw [he, hnone] at hr
    cases hr
  rw [hset fd' hne] at hr
  unfold tag
  rw [hanfd fd' hne]
  exact h.set fd' r hr

/-- What undoing does: the fd is in no epoll set any more. -/
structure Cancelled (fd : ℕ) (l l' : Loop U T Aio.Kernel) : Prop where
  alike : Fds.Alike l.fds l'.fds
  other : ∀ fd', fd' ≠ fd → SameAt fd' l l'
  regs : l'.epollView.Registered
  free : l'.kernel.epoll.set fd = none
  reqprio : 0 ≤ (l'.kernel.iocbs fd).reqprio
  iocbpmax : l'.kernel.iocbpmax = l.kernel.iocbpmax
  submits : l'.kernel.submits = l.kernel.submits
  inflight : l'.kernel.inflight = l.kernel.inflight
  ring : l'.kernel.ring = l.kernel.ring

theorem cancelled (l : Loop U T Aio.Kernel) (fd : ℕ) (hregs : l.epollView.Registered)
    (hfree : 0 ≤ (l.kernel.iocbs fd).reqprio → l.kernel.epoll.set fd = none) :
    Cancelled fd l (l.linuxaioCancel fd) := by
  unfold linuxaioCancel
  dsimp only
  split
  · -- it was handed over to epoll
    rename_i hneg
    have hset := epollCtl_set .del fd ⟨0, fd, 0⟩ hregs.accepts
    obtain ⟨hans, -⟩ := epollCtl_frame .del fd ⟨0, fd, 0⟩ l.kernel.epoll
    rw [show l.epollView.kernel = l.kernel.epoll from rfl] at hset
    obtain ⟨k, hk⟩ : ∃ k, k = (epollCtl .del fd ⟨0, fd, 0⟩ l.kernel.epoll).1 := ⟨_, rfl⟩
    rw [← hk] at hans
    have hdel : k.set fd = none ∧ ∀ fd', fd' ≠ fd → k.set fd' = l.kernel.epoll.set fd' := by
      rw [← hk] at hset
      cases he : (epollCtl .del fd ⟨0, fd, 0⟩ l.kernel.epoll).2 with
      | none =>
        rw [he] at hset
        dsimp only at hset
        exact ⟨by rw [hset, Function.update_self], fun fd' hne => by rw [hset, Function.update_of_ne hne]⟩
      | some e =>
        have hset : k.set = l.kernel.epoll.set ∧ l.kernel.epoll.set fd = none := by
          rw [he] at hset
          cases e <;> exact hset
        exact ⟨by rw [hset.1, hset.2], fun fd' _ => by rw [hset.1]⟩
    have hl : (l.withEpoll fun l =>
        ({ l with kernel := (epollCtl .del fd ⟨0, fd, 0⟩ l.kernel).1 } : Loop U T Epoll.Kernel).setEmask fd 0) =
        ({ l with fds := l.fds.setEmask fd 0, kernel := { l.kernel with epoll := k } } : Loop U T Aio.Kernel) := by
      rw [hk]
      rfl
    rw [hl]
    refine ⟨Fds.alike_setFd l.fds fd { l.fds.anfds fd with emask := 0 } rfl rfl rfl, fun fd' hne => ⟨?_, ?_, ?_,
      Function.update_of_ne hne .., hdel.2 fd' hne⟩, ?_, hdel.1, ?_, rfl, rfl, rfl, rfl⟩
    · exact congrArg ANFD.events (Function.update_of_ne hne ..)
    · exact congrArg ANFD.egen (Function.update_of_ne hne ..)
    · exact congrArg ANFD.emask (Function.update_of_ne hne ..)
    · exact registered_cleared hregs hans hdel.1 hdel.2 fun fd' hne => Function.update_of_ne hne ..
    · rw [iocbs_setIocb]
  · rename_i hneg
    have hnone := hfree (not_lt.mp hneg)
    split
    · have hg : ∀ fd', fd' ≠ fd → (l.fds.setEgen fd ((l.fds.anfds fd).egen + 1)).anfds fd' = l.fds.anfds fd' :=
        fun fd' hne => Function.update_of_ne hne ..
      refine ⟨Fds.alike_setFd l.fds fd { l.fds.anfds fd with egen := (l.fds.anfds fd).egen + 1 } rfl rfl rfl,
        fun fd' hne => ⟨congrArg ANFD.events (hg fd' hne), congrArg ANFD.egen (hg fd' hne),
          congrArg ANFD.emask (hg fd' hne), rfl, rfl⟩, ?_, hnone, not_lt.mp hneg, rfl, rfl, rfl, rfl⟩
      exact registered_cleared hregs rfl hnone (fun _ _ => rfl) hg
    · exact ⟨.refl _, fun _ _ => ⟨rfl, rfl, rfl, rfl, rfl⟩, hregs, hnone, not_lt.mp hneg, rfl, rfl, rfl, rfl⟩

/-- What `linuxaio_modify` does: the iocb of the fd has the mask, and is queued unless that is 0. -/
structure Modified (fd : ℕ) (nev : BitVec 8) (l l' : Loop U T Aio.Kernel) : Prop where
  alike : Fds.Alike l.fds l'.fds
  other : ∀ fd', fd' ≠ fd → SameAt fd' l l'
  regs : l'.epollView.Registered
  free : l'.kernel.epoll.set fd = none
  iocbpmax : l'.kernel.iocbpmax = max l.kernel.iocbpmax (fd + 1)
  inflight : l'.kernel.inflight = l.kernel.inflight
  ring : l'.kernel.ring = l.kernel.ring
  buf : (l'.kernel.iocbs fd).buf = kernelMask nev
  sub : ∀ fd' ∈ l.kernel.submits, fd' ∈ l'.kernel.submits
  queued : nev ≠ 0 → fd ∈ l'.kernel.submits ∧ (l'.kernel.iocbs fd).gen = l'.epollView.tag fd

theorem modified (l : Loop U T Aio.Kernel) (fd : ℕ) (oev nev : BitVec 8) (hregs : l.epollView.Registered)
    (hfree : 0 ≤ (l.kernel.iocbs fd).reqprio → l.kernel.epoll.set fd = none) :
    Modified fd nev l (linuxaioModify fd oev nev l) := by
  obtain ⟨l₀, hl₀⟩ : ∃ l₀ : Loop U T Aio.Kernel,
    l₀ = { l with kernel := { l.kernel with iocbpmax := max l.kernel.iocbpmax (fd + 1) } } := ⟨_, rfl⟩
  have hc : Cancelled fd l₀ (l₀.linuxaioCancel fd) := by
    subst hl₀
    exact cancelled _ fd hregs hfree
  have hother : ∀ fd', SameAt fd' l l₀ := fun fd' => by
    rw [hl₀]
    exact ⟨rfl, rfl, rfl, rfl, rfl⟩
  have h₀ : l₀.fds = l.fds ∧ l₀.kernel.submits = l.kernel.submits ∧ l₀.kernel.inflight = l.kernel.inflight ∧
      l₀.kernel.ring = l.kernel.ring ∧ l₀.kernel.iocbpmax = max l.kernel.iocbpmax (fd + 1) := by
    rw [hl₀]
    exact ⟨rfl, rfl, rfl, rfl, rfl⟩
  obtain ⟨hfds, hsub, hin, hring, hmax⟩ := h₀
  unfold linuxaioModify
  dsimp only
  rw [← hl₀]
  generalize l₀.linuxaioCancel fd = l₁ at hc
  obtain ⟨l₂, hl₂⟩ : ∃ l₂, l₂ = l₁.setIocb fd { l₁.kernel.iocbs fd with buf := kernelMask nev } := ⟨_, rfl⟩
  have hother₂ : ∀ fd', fd' ≠ fd → SameAt fd' l l₂ := fun fd' hne => by
    rw [hl₂]
    exact ((hother fd').trans (hc.other fd' hne)).trans (sameAt_setIocb l₁ fd _ hne)
  have hbuf : (l₂.kernel.iocbs fd).buf = kernelMask nev := by rw [hl₂, iocbs_setIocb]
  have hreq : 0 ≤ (l₂.kernel.iocbs fd).reqprio := by
    rw [hl₂, iocbs_setIocb]
    exact hc.reqprio
  have h₂ : l₂.fds = l₁.fds ∧ l₂.kernel.epoll = l₁.kernel.epoll ∧ l₂.kernel.submits = l₁.kernel.submits ∧
      l₂.kernel.inflight = l₁.kernel.inflight ∧ l₂.kernel.ring = l₁.kernel.ring ∧
      l₂.kernel.iocbpmax = l₁.kernel.iocbpmax := by
    rw [hl₂]
    exact ⟨rfl, rfl, rfl, rfl, rfl, rfl⟩
  obtain ⟨hfds₂, hepoll₂, hsub₂, hin₂, hring₂, hmax₂⟩ := h₂
  have halike : Fds.Alike l.fds l₂.fds := by
    rw [hfds₂, ← hfds]
    exact hc.alike
  have hregs₂ : l₂.epollView.Registered := by
    refine hc.regs.keeps (congrArg Epoll.Kernel.set hepoll₂) (congrArg Epoll.Kernel.answers hepoll₂) ?_
    show Fds.Keeps l₁.fds l₂.fds
    rw [hfds₂]
    exact .refl _
  rw [← hl₂]
  split
  · -- the iocb is queued
    refine ⟨halike, fun fd' hne => (hother₂ fd' hne).trans ?_, hregs₂, ?_, ?_, ?_, ?_, ?_, fun fd' hin' => ?_,
      fun _ => ⟨List.mem_append_right _ (List.mem_singleton_self fd), ?_⟩⟩
    · obtain ⟨h₁, h₂, h₃, h₄, h₅⟩ := sameAt_setIocb l₂ fd { l₂.kernel.iocbs fd with gen := l₂.epollView.tag fd } hne
      exact ⟨h₁, h₂, h₃, h₄, h₅⟩
    · exact (congrArg (fun k : Epoll.Kernel => k.set fd) hepoll₂).trans hc.free
    · exact hmax₂.trans (hc.iocbpmax.trans hmax)
    · exact hin₂.trans (hc.inflight.trans hin)
    · exact hring₂.trans (hc.ring.trans hring)
    · exact (congrArg Iocb.buf (iocbs_setIocb l₂ fd _)).trans hbuf
    · refine List.mem_append_left _ ?_
      show fd' ∈ l₂.kernel.submits
      rw [hsub₂, hc.submits, hsub]
      exact hin'
    · exact congrArg Iocb.gen (iocbs_setIocb l₂ fd _)
  · rename_i hn
    refine ⟨halike, hother₂, hregs₂, ?_, hmax₂.trans (hc.iocbpmax.trans hmax), hin₂.trans (hc.inflight.trans hin),
      hring₂.trans (hc.ring.trans hring), hbuf, fun fd' hin' => ?_, fun h => absurd h hn⟩
    · exact (congrArg (fun k : Epoll.Kernel => k.set fd) hepoll₂).trans hc.free
    · rw [hsub₂, hc.submits, hsub]
      exact hin'

end

/-! ### fd_reify -/

section

omit [DecidableEq U]

theorem sameAt_reify (l : Loop U T Aio.Kernel) (fd : ℕ) {fd' : ℕ} (hne : fd' ≠ fd) :
    SameAt fd' l { l with fds := l.fds.reify fd } :=
  have h : (l.fds.reify fd).anfds fd' = l.fds.anfds fd' := Function.update_of_ne hne ..
  ⟨congrArg ANFD.events h, congrArg ANFD.egen h, congrArg ANFD.emask h, rfl, rfl⟩

/-- The fds in `queue` are still to be looked at, and those lost are among them. -/
structure Reifying (queue : List ℕ) (lost : ℕ → Prop) (l : Loop U T Aio.Kernel) : Prop where
  tracked : l.fds.Tracked queue
  keeping : Keeping l.kernel.submits l.kernel.ring.unread lost l
  lost : ∀ fd, lost fd → (l.fds.anfds fd).events ≠ 0 →
    (l.fds.anfds fd).head = [] ∨ (l.fds.anfds fd).reify.getLsbD 7 = true

theorem Reifying.one {queue : List ℕ} (h : Reifying (fd :: queue) lost l) :
    Reifying queue (fun fd' => lost fd' ∧ fd' ≠ fd) (fdReifyOne linuxaioModify l fd) ∧
      (fdReifyOne linuxaioModify l fd).fds.fdchanges = l.fds.fdchanges := by
  obtain ⟨l₁, hl₁⟩ : ∃ l₁ : Loop U T Aio.Kernel, l₁ = { l with fds := l.fds.reify fd } := ⟨_, rfl⟩
  have htr : l₁.fds.Tracked queue := by
    rw [hl₁]
    exact h.tracked.reify
  have hanfd : ∀ fd', fd' ≠ fd → l₁.fds.anfds fd' = l.fds.anfds fd' := fun fd' hne => by
    rw [hl₁]
    exact Function.update_of_ne hne ..
  have hother : ∀ fd', fd' ≠ fd → SameAt fd' l l₁ := fun fd' hne => by
    rw [hl₁]
    exact sameAt_reify l fd hne
  have hk : l₁.kernel = l.kernel := by rw [hl₁]
  have hevents : (l₁.fds.anfds fd).events = l.fds.wanted fd := by
    rw [hl₁]
    exact (Fds.events_reify l.fds fd fd).trans (if_pos rfl)
  have hfd : (l₁.fds.anfds fd).egen = (l.fds.anfds fd).egen ∧ (l₁.fds.anfds fd).emask = (l.fds.anfds fd).emask := by
    rw [hl₁]
    simp [Fds.reify, Fds.setFd]
  have hlost : ∀ fd', lost fd' ∧ fd' ≠ fd → (l₁.fds.anfds fd').events ≠ 0 →
      (l₁.fds.anfds fd').head = [] ∨ (l₁.fds.anfds fd').reify.getLsbD 7 = true := by
    rintro fd' ⟨hl, hne⟩ he
    rw [hanfd fd' hne] at he ⊢
    exact h.lost fd' hl he
  have hregs : l₁.epollView.Registered := by
    refine h.keeping.regs.keeps (congrArg (·.epoll.set) hk) (congrArg (·.epoll.answers) hk) ?_
    rw [hl₁]
    exact Fds.keeps_reify l.fds fd
  unfold fdReifyOne
  rw [Fds.change_eq]
  by_cases hc : (l.fds.anfds fd).events = l.fds.wanted fd ∧ (l.fds.anfds fd).reify.getLsbD 7 = false
  · -- nothing for the backend to be told
    rw [if_pos hc]
    dsimp only
    rw [← hl₁]
    have hsame : ∀ fd', SameAt fd' l l₁ := fun fd' => by
      by_cases hne : fd' = fd
      · rw [hne]
        exact ⟨by rw [hevents, hc.1], hfd.1, hfd.2, by rw [hk], by rw [hk]⟩
      · exact hother fd' hne
    refine ⟨⟨htr, ?_, hlost⟩, rfl⟩
    rw [hk]
    refine (h.keeping.same hsame (by rw [hk]; exact ⟨rfl, rfl, rfl⟩)).weaken fun fd' he hl => ⟨hl, fun heq => ?_⟩
    rw [heq] at he hl
    rw [(hsame fd).events] at he
    rcases h.lost fd hl he with hnil | hbit
    · exact he (hc.1.trans (Fds.wanted_nil hnil))
    · rw [hc.2] at hbit
      cases hbit
  · rw [if_neg hc]
    dsimp only
    rw [← hl₁]
    have hm := modified l₁ fd (l.fds.anfds fd).events (l.fds.wanted fd) hregs fun hr => by
      rw [hk] at hr ⊢
      exact h.keeping.free fd hr
    generalize linuxaioModify fd (l.fds.anfds fd).events (l.fds.wanted fd) l₁ = l₂ at hm
    have hbits := h.tracked.wanted_bits fd
    have hev₂ : (l₂.fds.anfds fd).events = l.fds.wanted fd := by rw [hm.alike.events, hevents]
    refine ⟨⟨htr.alike hm.alike, ?_, fun fd' hl he => ?_⟩, ?_⟩
    · rw [hm.ring, hk]
      refine h.keeping.touch fd (fun fd' hne => (hother fd' hne).trans (hm.other fd' hne)) (by rw [hev₂]; exact hbits)
        hm.regs (fun _ => hm.free) ?_ (fun _ => ?_) (fun r hr => ?_) (fun fd' _ hin => ?_) (fun _ _ _ hc _ => hc)
        (fun fd' hne hl => ⟨hl, hne⟩) fun he _ => ?_
      · rw [hm.iocbpmax, hk]
        exact le_max_left ..
      · rw [hm.iocbpmax]
        exact lt_max_of_lt_right (Nat.lt_succ_self fd)
      · rw [hm.inflight, hk]
        exact hr
      · refine hm.sub fd' ?_
        rw [hk]
        exact hin
      · rw [hev₂] at he
        obtain ⟨hq, hgen⟩ := hm.queued he
        refine ⟨by rw [hm.buf]; exact kernelMask_ne hbits he, .inl ⟨hq, by rw [hm.buf, hev₂], hgen⟩⟩
    · rw [hm.alike.events] at he
      rw [hm.alike.head, hm.alike.reify]
      exact hlost fd' hl he
    · rw [hm.alike.fdchanges, hl₁]
      rfl

theorem Reifying.all {queue : List ℕ} (h : Reifying queue lost l) :
    (∃ lost', Reifying [] lost' (queue.foldl (fdReifyOne linuxaioModify) l)) ∧
      (queue.foldl (fdReifyOne linuxaioModify) l).fds.fdchanges = l.fds.fdchanges := by
  induction queue generalizing l lost with
  | nil => exact ⟨⟨lost, h⟩, rfl⟩
  | cons fd queue ih =>
    obtain ⟨h₁, hch⟩ := h.one
    obtain ⟨h₂, hch₂⟩ := ih h₁
    exact ⟨h₂, hch₂.trans hch⟩

/-- After `fd_reify` no fd is lost, and none is queued. -/
theorem Reifying.reify (h : Reifying l.fds.fdchanges lost l) :
    (l.fdReify linuxaioModify).fds.fdchanges = [] ∧ (l.fdReify linuxaioModify).fds.Tracked [] ∧
      Keeping (l.fdReify linuxaioModify).kernel.submits (l.fdReify linuxaioModify).kernel.ring.unread (fun _ => False)
        (l.fdReify linuxaioModify) := by
  obtain ⟨⟨lost', h'⟩, hch⟩ := h.all
  unfold fdReify
  dsimp only
  generalize l.fds.fdchanges.foldl (fdReifyOne linuxaioModify) l = l₁ at h' hch
  refine ⟨?_, ⟨h'.tracked.linked.congr (fun _ => rfl) rfl rfl, h'.tracked.bound, h'.tracked.mask, h'.tracked.queued,
    h'.tracked.clean⟩, ?_⟩
  · show l₁.fds.fdchanges.drop _ = []
    rw [hch, List.drop_length]
  · have hk : Keeping l₁.kernel.submits l₁.kernel.ring.unread (fun _ => False) l₁ :=
      h'.keeping.weaken fun fd he hl => by
        rcases h'.lost fd hl he with hnil | hbit
        · exact he ((h'.tracked.clean fd List.not_mem_nil).trans (Fds.wanted_nil hnil))
        · have hr : (l₁.fds.anfds fd).reify ≠ 0 := fun h0 => by
            rw [h0] at hbit
            cases hbit
          exact absurd (h'.tracked.queued fd hr) List.not_mem_nil
    exact hk.still ⟨fun _ => rfl, fun _ => rfl, fun _ => rfl⟩ rfl

end

/-! ### Submitting -/

/-- What holds in a poll: of the fds queued anew the backend has been told nothing, or they were killed. -/
structure Polling (rest : List ℕ) (un : List Completion) (l : Loop U T Aio.Kernel) : Prop where
  tracked : l.fds.Tracked l.fds.fdchanges
  keeping : Keeping rest un (fun fd => (l.fds.anfds fd).head = []) l
  settled : ∀ fd ∈ l.fds.fdchanges, (l.fds.anfds fd).events = 0 ∨ (l.fds.anfds fd).head = []

section

omit [DecidableEq U]

theorem Reifying.polling (h : Reifying l.fds.fdchanges lost l) :
    Polling (l.fdReify linuxaioModify).kernel.submits (l.fdReify linuxaioModify).kernel.ring.unread
      (l.fdReify linuxaioModify) := by
  obtain ⟨hch, htr, hk⟩ := h.reify
  refine ⟨by rw [hch]; exact htr, hk.weaken fun _ _ hf => hf.elim, fun fd hin => ?_⟩
  rw [hch] at hin
  cases hin

/-- What leaves the fds and where they stand alone. -/
theorem Polling.congr (h : Polling rest un l) (hfds : l'.fds = l.fds) (hk : l'.kernel.epoll = l.kernel.epoll ∧
      l'.kernel.iocbs = l.kernel.iocbs ∧ l'.kernel.iocbpmax = l.kernel.iocbpmax ∧
      l'.kernel.inflight = l.kernel.inflight) : Polling rest un l' := by
  refine ⟨by rw [hfds]; exact h.tracked, ?_, by rw [hfds]; exact h.settled⟩
  rw [hfds]
  exact h.keeping.same (fun fd => ⟨by rw [hfds], by rw [hfds], by rw [hfds], by rw [hk.2.1], by rw [hk.1]⟩)
    ⟨hk.1, hk.2.2.1, hk.2.2.2⟩

/-- A killed fd stands nowhere. -/
theorem Polling.killed (h : Polling (fd :: rest) un l) (hf : Fds.Still l.fds l'.fds) (hk : l'.kernel = l.kernel)
    (hkill : Fds.Killed fd l.fds l'.fds) : Polling rest un l' := by
  have hs : ∀ fd', SameAt fd' l l' := fun fd' => ⟨hf.events fd', hf.egen fd', hf.emask fd', by rw [hk], by rw [hk]⟩
  have hregs : l'.epollView.Registered :=
    h.keeping.regs.keeps (congrArg (·.epoll.set) hk) (congrArg (·.epoll.answers) hk) hf.keeps
  refine ⟨hkill.tracked, ?_, fun fd' hin => ?_⟩
  · refine h.keeping.touch fd (fun fd' _ => hs fd') (by rw [hf.events]; exact h.keeping.bits fd) hregs
      (by rw [hk]; exact h.keeping.free fd) (by rw [hk]) (by rw [hk]; exact h.keeping.small fd)
      (fun r hr => by rw [hk]; exact hr) (fun fd' hne hin => (List.mem_cons.mp hin).resolve_left hne)
      (fun _ _ _ hc _ => hc) (fun fd' hne hnil => ?_) fun _ hn => absurd hkill.head hn
    rw [(hkill.other fd' hne).1]
    exact hnil
  · by_cases hne : fd' = fd
    · rw [hne]
      exact .inr hkill.head
    · rw [(hkill.other fd' hne).1, hkill.events]
      exact h.settled fd' ((hkill.sub fd' hin).resolve_right hne)

end

theorem Polling.kill (h : Polling (fd :: rest) un l) : Polling rest un (l.fdKill fd) :=
  h.killed (still_fdKill l fd) (kernel_fdKill l fd) (killed_fdKill fd l h.tracked)

section

omit [DecidableEq U]

theorem Polling.accepted (h : Polling rest un l) (n : ℕ) :
    Polling (rest.drop n) un ({ l with kernel := { l.kernel with
      inflight := l.kernel.inflight ++
        (rest.take n).map fun fd => ⟨fd, (l.kernel.iocbs fd).gen, (l.kernel.iocbs fd).buf⟩ } } : Loop U T Aio.Kernel) := by
  refine ⟨h.tracked, ⟨h.keeping.bits, h.keeping.regs, h.keeping.free, h.keeping.small, fun fd he hl => ?_⟩, h.settled⟩
  obtain ⟨hb, hp⟩ := h.keeping.told fd he hl
  refine ⟨hb, ?_⟩
  rcases hp with ⟨hin, hbuf, hgen⟩ | hp | hp | hp
  · rw [← List.take_append_drop n rest] at hin
    rcases List.mem_append.mp hin with hin | hin
    · refine .inr (.inl (List.mem_append_right _ ?_))
      refine List.mem_map.mpr ⟨fd, hin, ?_⟩
      rw [hbuf, hgen]
      rfl
    · exact .inl ⟨hin, hbuf, hgen⟩
  · exact .inr (.inl (List.mem_append_left _ hp))
  · exact .inr (.inr (.inl hp))
  · exact .inr (.inr (.inr hp))

end

/-- An fd is handed over to epoll, which takes it, flags it or kills it. -/
theorem Polling.handed (h : Polling (fd :: rest) un l) :
    Polling rest un ((l.withEpoll fun l => epollModify fd 0 (l.fds.anfds fd).events l).setIocb fd
      { l.kernel.iocbs fd with reqprio := -1 }) := by
  obtain ⟨ev, hev⟩ : ∃ ev, ev = (l.fds.anfds fd).events := ⟨_, rfl⟩
  obtain ⟨m, hm⟩ : ∃ m, m = epollModify fd 0 ev l.epollView := ⟨_, rfl⟩
  have hview : l.withEpoll (fun l => epollModify fd 0 (l.fds.anfds fd).events l) =
      m.mapKernel fun k => { l.kernel with epoll := k } := by rw [hm, hev]; rfl
  rw [hview]
  obtain ⟨l', hl'⟩ : ∃ l' : Loop U T Aio.Kernel, l' =
    (m.mapKernel fun k => { l.kernel with epoll := k }).setIocb fd { l.kernel.iocbs fd with reqprio := -1 } := ⟨_, rfl⟩
  rw [← hl']
  have hfds : l'.fds = m.fds := by rw [hl']; rfl
  have hk : l'.kernel = { l.kernel with
      epoll := m.kernel, iocbs := Function.update l.kernel.iocbs fd { l.kernel.iocbs fd with reqprio := -1 } } := by
    rw [hl']
    rfl
  have hiocb : l'.kernel.iocbs fd = { l.kernel.iocbs fd with reqprio := -1 } := by
    rw [hl']
    exact iocbs_setIocb ..
  have hframe := epollModify_frame fd 0 ev h.keeping.regs.accepts
  rw [← hm] at hframe
  -- in each case the masks are as they were
  have hcases : (∀ fd', (m.fds.anfds fd').events = (l.fds.anfds fd').events) ∧ m.Registered ∧
      ((ev = 0 ∧ m.fds = l.fds) ∨ (Fds.Alike l.fds m.fds ∧
        (m.kernel.set fd = some ⟨kernelMask ev, fd, m.tag fd⟩ ∨ (m.fds.anfds fd).emask = evEmaskEperm)) ∨
        Fds.Killed fd l.fds m.fds) := by
    by_cases h0 : ev = 0
    · have hmv : m = l.epollView := by rw [hm, epollModify, if_pos h0]
      rw [hmv]
      exact ⟨fun _ => rfl, h.keeping.regs, .inl ⟨h0, rfl⟩⟩
    · have hregs : m.Registered := by
        rw [hm]
        exact (h.keeping.regs.modify fd 0 h0).1
      have hspec := epollModify_spec h.keeping.regs h.tracked fd 0 h0
      rw [← hm] at hspec
      rcases hspec with ⟨ha, hs⟩ | hkill
      · exact ⟨ha.events, hregs, .inr (.inl ⟨ha, hs⟩)⟩
      · exact ⟨hkill.events, hregs, .inr (.inr hkill)⟩
  obtain ⟨hevents, hregs, hcases⟩ := hcases
  have hother : ∀ fd', fd' ≠ fd → SameAt fd' l l' := fun fd' hne =>
    ⟨by rw [hfds, hevents], by rw [hfds]; exact (hframe fd' hne).2.1, by rw [hfds]; exact (hframe fd' hne).2.2,
      by rw [hk]; exact Function.update_of_ne hne .., by rw [hk]; exact (hframe fd' hne).1⟩
  have hregs' : l'.epollView.Registered := by
    rw [show l'.epollView = m by rw [hl']; rfl]
    exact hregs
  have htouch : (∀ fd', fd' ≠ fd → (l.fds.anfds fd').head = [] → (l'.fds.anfds fd').head = []) →
      ((l'.fds.anfds fd).events ≠ 0 → (l'.fds.anfds fd).head ≠ [] →
        (l'.kernel.iocbs fd).buf ≠ 0 ∧ Placed rest un l' fd) →
      Keeping rest un (fun fd => (l'.fds.anfds fd).head = []) l' := fun hnil htold =>
    h.keeping.touch fd hother (by rw [hfds, hevents]; exact h.keeping.bits fd) hregs'
      (fun hr => by rw [hiocb] at hr; exact absurd hr (by decide : ¬ (0 : ℤ) ≤ -1)) (by rw [hk])
      (fun hb => by rw [hiocb] at hb; rw [hk]; exact h.keeping.small fd hb) (fun r hr => by rw [hk]; exact hr)
      (fun fd' hne hin => (List.mem_cons.mp hin).resolve_left hne) (fun _ _ _ hc _ => hc) hnil htold
  rcases hcases with ⟨h0, hsame⟩ | ⟨ha, hs⟩ | hkill
  · rw [← hfds] at hsame
    refine ⟨by rw [hsame]; exact h.tracked, htouch (fun fd' _ hnil => by rw [hsame]; exact hnil) fun he => ?_, by
      rw [hsame]; exact h.settled⟩
    rw [hsame] at he
    exact absurd (hev.symm.trans h0) he
  · rw [← hfds] at ha
    refine ⟨by rw [ha.fdchanges]; exact h.tracked.alike ha, htouch (fun fd' _ hnil => by rw [ha.head]; exact hnil)
      fun he hn => ⟨?_, .inr (.inr (.inr ⟨by rw [hiocb]; exact (by decide : (-1 : ℤ) < 0), ?_⟩))⟩, fun fd' hin => ?_⟩
    · rw [ha.events] at he
      rw [ha.head] at hn
      rw [hiocb]
      exact (h.keeping.told fd he hn).1
    · rw [ha.events, ← hev, hk]
      rcases hs with hs | hs
      · refine .inl (hs.trans ?_)
        rw [show l'.epollView = m by rw [hl']; rfl]
      · rw [hfds]
        exact .inr hs
    · rw [ha.fdchanges] at hin
      rw [ha.events, ha.head]
      exact h.settled fd' hin
  · rw [← hfds] at hkill
    refine ⟨hkill.tracked, htouch (fun fd' hne hnil => by rw [(hkill.other fd' hne).1]; exact hnil)
      fun _ hn => absurd hkill.head hn, fun fd' hin => ?_⟩
    by_cases hne : fd' = fd
    · rw [hne]
      exact .inr hkill.head
    · rw [(hkill.other fd' hne).1, hkill.events]
      exact h.settled fd' ((hkill.sub fd' hin).resolve_right hne)

section

omit [DecidableEq U]

theorem events_linuxaioFdRearm (l : Loop U T Aio.Kernel) (fd : ℕ) :
    ((l.linuxaioFdRearm fd).fds.anfds fd).events = 0 := by
  show (((l.fds.setFd fd { l.fds.anfds fd with events := 0 }).fdChange fd evAnfdReify).anfds fd).events = 0
  rw [Fds.events_fdChange]
  show (Function.update l.fds.anfds fd { l.fds.anfds fd with events := 0 } fd).events = 0
  rw [Function.update_self]

theorem Polling.rearm (h : Polling rest un l) (fd : ℕ) : Polling rest un (l.linuxaioFdRearm fd) := by
  obtain ⟨l', hl'⟩ : ∃ l', l' = l.linuxaioFdRearm fd := ⟨_, rfl⟩
  rw [← hl']
  have hfds : l'.fds = (l.fds.setFd fd { l.fds.anfds fd with events := 0 }).fdChange fd evAnfdReify := by
    rw [hl']
    rfl
  have hkeeps : Fds.Keeps l.fds l'.fds := by
    rw [hfds]
    exact (Fds.keeps_setFd l.fds fd { l.fds.anfds fd with events := 0 } rfl (.inl rfl)).trans
      (Fds.still_fdChange ..).keeps
  have hanfd : ∀ fd', fd' ≠ fd → l'.fds.anfds fd' = l.fds.anfds fd' := fun fd' hne => by
    rw [hfds]
    exact (Function.update_of_ne hne ..).trans (Function.update_of_ne hne ..)
  have hevents : (l'.fds.anfds fd).events = 0 := by
    rw [hl']
    exact events_linuxaioFdRearm l fd
  have hk : l'.kernel = { l.kernel with
      iocbs := Function.update l.kernel.iocbs fd { l.kernel.iocbs fd with buf := 0 } } := by
    rw [hl']
    rfl
  have hiocb : l'.kernel.iocbs fd = { l.kernel.iocbs fd with buf := 0 } := by
    rw [hk]
    exact Function.update_self ..
  have hother : ∀ fd', fd' ≠ fd → SameAt fd' l l' := fun fd' hne =>
    ⟨by rw [hanfd fd' hne], by rw [hanfd fd' hne], by rw [hanfd fd' hne], by rw [hk]; exact Function.update_of_ne hne ..,
      by rw [hk]⟩
  refine ⟨by rw [hfds]; exact h.tracked.forget fd evAnfdReify, ?_, fun fd' hin => ?_⟩
  · refine h.keeping.touch fd hother (by rw [hevents]; rfl)
      (h.keeping.regs.keeps (by rw [epollView, mapKernel, hk]; rfl) (by rw [epollView, mapKernel, hk]; rfl) hkeeps)
      (fun hr => ?_)
      (by rw [hk]) (fun hb => ?_) (fun r hr => by rw [hk]; exact hr) (fun _ _ hin => hin) (fun _ _ _ hc _ => hc)
      (fun fd' hne hnil => by rw [hanfd fd' hne]; exact hnil) fun he => absurd hevents he
    · rw [hiocb] at hr
      rw [hk]
      exact h.keeping.free fd hr
    · rw [hiocb] at hb
      exact absurd rfl hb
  · by_cases hne : fd' = fd
    · rw [hne]
      exact .inl hevents
    · rw [hanfd fd' hne]
      refine h.settled fd' ?_
      rw [hfds, Fds.fdchanges_fdChange] at hin
      split at hin
      · exact (List.mem_append.mp hin).resolve_right fun hm => hne (List.mem_singleton.mp hm)
      · exact hin

theorem buf_linuxaioFdRearm (l : Loop U T Aio.Kernel) (fd fd' : ℕ) :
    ((l.linuxaioFdRearm fd).kernel.iocbs fd').buf = if fd' = fd then 0 else (l.kernel.iocbs fd').buf := by
  by_cases hne : fd' = fd
  · rw [if_pos hne, hne]
    exact congrArg Iocb.buf (iocbs_setIocb _ fd _)
  · rw [if_neg hne]
    exact congrArg Iocb.buf (Function.update_of_ne hne ..)

/-- After all active iocbs are rearmed none is active. -/
theorem Polling.rearmAll (h : Polling rest un l) :
    Polling rest un l.linuxaioRearmAll ∧ ∀ fd, (l.linuxaioRearmAll.kernel.iocbs fd).buf = 0 := by
  have hrange : ∀ n, Polling rest un ((List.range n).foldl
        (fun l fd => if (l.kernel.iocbs fd).buf ≠ 0 then l.linuxaioFdRearm fd else l) l) ∧
      ∀ fd, (((List.range n).foldl (fun l fd => if (l.kernel.iocbs fd).buf ≠ 0 then l.linuxaioFdRearm fd else l)
        l).kernel.iocbs fd).buf = if fd < n then 0 else (l.kernel.iocbs fd).buf := by
    intro n
    induction n with
    | zero => exact ⟨h, fun fd => (if_neg (Nat.not_lt_zero fd)).symm⟩
    | succ n ih =>
      rw [List.range_succ, List.foldl_append, List.foldl_cons, List.foldl_nil]
      generalize (List.range n).foldl
        (fun l fd => if (l.kernel.iocbs fd).buf ≠ 0 then l.linuxaioFdRearm fd else l) l = l₁ at ih
      obtain ⟨hp, hb⟩ := ih
      by_cases hn : (l₁.kernel.iocbs n).buf ≠ 0
      · rw [if_pos hn]
        refine ⟨hp.rearm n, fun fd => ?_⟩
        rw [buf_linuxaioFdRearm, hb]
        by_cases hfd : fd = n
        · rw [if_pos hfd, if_pos (by omega)]
        · rw [if_neg hfd]
          exact if_congr (by omega) rfl rfl
      · rw [if_neg hn]
        refine ⟨hp, fun fd => ?_⟩
        rw [hb]
        by_cases hfd : fd = n
        · rw [if_neg (by omega), if_pos (by omega), hfd]
          have hbn := hb n
          rw [if_neg (lt_irrefl n)] at hbn
          rw [← hbn]
          exact not_not.mp hn
        · exact if_congr (by omega) rfl rfl
  obtain ⟨hp, hb⟩ := hrange l.kernel.iocbpmax
  refine ⟨hp, fun fd => ?_⟩
  refine (hb fd).trans ?_
  split
  · rfl
  · rename_i hge
    by_contra hne
    exact hge (h.keeping.small fd hne)

theorem submits_linuxaioRearmAll (l : Loop U T Aio.Kernel) :
    l.linuxaioRearmAll.kernel.submits = l.kernel.submits := by
  unfold linuxaioRearmAll
  generalize List.range l.kernel.iocbpmax = fds
  induction fds generalizing l with
  | nil => rfl
  | cons fd fds ih =>
    rw [List.foldl_cons, ih]
    by_cases hb : (l.kernel.iocbs fd).buf ≠ 0
    · rw [if_pos hb]
      rfl
    · rw [if_neg hb]

end

/-- After a poll that submitted all. -/
def Ready (l : Loop U T Aio.Kernel) : Prop := Polling [] l.kernel.ring.unread l ∧ l.kernel.submits = []

/-- After epoll has replaced the backend: it has been told nothing. -/
structure Switched (l : Loop U T Aio.Kernel) : Prop where
  backend : l.backend = .epoll
  tracked : l.fds.Tracked l.fds.fdchanges
  none : ∀ fd, (l.fds.anfds fd).events = 0 ∨ (l.fds.anfds fd).head = []

theorem Polling.recreate (h : Polling rest un l) (setup : Option ℕ) :
    Ready (l.linuxaioRecreate setup) ∨ Switched (l.linuxaioRecreate setup) := by
  have h₀ : Polling rest un ({ l with kernel := { l.kernel with submits := [] } } : Loop U T Aio.Kernel) :=
    h.congr rfl ⟨rfl, rfl, rfl, rfl⟩
  obtain ⟨h₁, hbuf⟩ := h₀.rearmAll
  have hnone : ∀ l₁ : Loop U T Aio.Kernel, Polling rest un l₁ → (∀ fd, (l₁.kernel.iocbs fd).buf = 0) →
      ∀ fd, (l₁.fds.anfds fd).events = 0 ∨ (l₁.fds.anfds fd).head = [] := by
    intro l₁ h₁ hbuf fd
    by_contra hne
    rw [not_or] at hne
    exact (h₁.keeping.told fd hne.1 hne.2).1 (hbuf fd)
  have hsub := submits_linuxaioRearmAll ({ l with kernel := { l.kernel with submits := [] } } : Loop U T Aio.Kernel)
  unfold linuxaioRecreate
  dsimp only
  generalize linuxaioRearmAll { l with kernel := { l.kernel with submits := [] } } = l₁ at h₁ hbuf hsub
  have hev := hnone l₁ h₁ hbuf
  cases setup with
  | some n =>
    refine .inl ⟨⟨h₁.tracked, ⟨h₁.keeping.bits, h₁.keeping.regs, h₁.keeping.free, h₁.keeping.small,
      fun fd he hn => ?_⟩, h₁.settled⟩, hsub⟩
    exact absurd ((hev fd).resolve_left he) hn
  | none =>
    refine .inr ?_
    obtain ⟨l₂, hl₂⟩ : ∃ l₂ : Loop U T Aio.Kernel, l₂ = { l₁ with kernel := { l₁.kernel with
        inflight := [], ring := .fresh 0 l₁.kernel.ring.cells, iteration := l₁.kernel.iteration + 1,
        iocbs := fun _ => .zero, iocbpmax := 0 } } ∧ l₂.fds = l₁.fds := ⟨_, rfl, rfl⟩
    have hfds : (l₂.evIoStop .linuxaioEpollW).fds =
        if l₁.fds.active .linuxaioEpollW = 0 then l₁.fds else l₁.fds.stop .linuxaioEpollW := by
      rw [fds_evIoStop, hl₂.2]
    have hs : Switched { (l₂.evIoStop .linuxaioEpollW).evRef with backend := .epoll } := by
      refine ⟨rfl, ?_, fun fd => ?_⟩
      · show (l₂.evIoStop .linuxaioEpollW).fds.Tracked (l₂.evIoStop .linuxaioEpollW).fds.fdchanges
        rw [hfds]
        split
        · exact h₁.tracked
        · exact h₁.tracked.stop _
      · show ((l₂.evIoStop .linuxaioEpollW).fds.anfds fd).events = 0 ∨
          ((l₂.evIoStop .linuxaioEpollW).fds.anfds fd).head = []
        rw [hfds]
        split
        · exact hev fd
        · rw [(Fds.still_stop _ _).events, Fds.head_stop]
          refine (hev fd).imp_right fun hnil => ?_
          rw [hnil]
          split
          · rfl
          · rfl
    rw [hl₂.1] at hs
    exact hs

theorem Polling.submit (as : List Submitted) {r : Loop U T Aio.Kernel × Bool} (h : Polling rest l.kernel.ring.unread l)
    (hr : linuxaioSubmit as rest l = some r) :
    (r.2 = true ∧ Ready r.1) ∨ (r.2 = false ∧ (Ready r.1 ∨ Switched r.1)) := by
  induction as generalizing l rest with
  | nil =>
    cases rest with
    | nil =>
      cases hr
      exact .inl ⟨rfl, h.congr rfl ⟨rfl, rfl, rfl, rfl⟩, rfl⟩
    | cons fd rest => cases hr
  | cons a as ih =>
    cases rest with
    | nil =>
      have hr : some (({ l with kernel := { l.kernel with submits := [] } } : Loop U T Aio.Kernel), true) = some r := by
        rw [← hr, linuxaioSubmit]
      cases hr
      exact .inl ⟨rfl, h.congr rfl ⟨rfl, rfl, rfl, rfl⟩, rfl⟩
    | cons fd rest =>
      cases a with
      | accepted n =>
        simp only [linuxaioSubmit] at hr
        split at hr
        · exact ih (h.accepted n) hr
        · cases hr
      | einval => exact ih h.handed hr
      | eagain setup =>
        cases hr
        exact .inr ⟨rfl, h.recreate setup⟩
      | ebadf =>
        refine ih ?_ hr
        rw [kernel_fdKill]
        exact h.kill
      | eintr => exact ih h hr
      | other => exact ih h hr

end Loop

end Qev
