/-
# What epoll has registered

Whatever the order of user code, reifies, polls, forks and closes of fds, a registration
in the kernel's set carries the fd's generation and, unless the loop has forgotten it,
the mask in `emask` (`Registered`), as long as the kernel refuses no fd that it has in its
set. So when `epoll_modify` guesses that an ADD was refused because nothing has changed,
the guess is right: each call that does not give up its fd leaves it registered as it was
asked for, or flagged (`epoll_registration`).
-/
import Qev.Backend.Epoll

namespace Qev

open Lib Epoll

namespace Fds

variable {W : Type} [DecidableEq W] {s t u : Fds W}

/-- The generations are the same, and a mask given to the kernel at most forgotten. -/
structure Keeps (s t : Fds W) : Prop where
  egen : ∀ fd, (t.anfds fd).egen = (s.anfds fd).egen
  emask : ∀ fd, (t.anfds fd).emask = (s.anfds fd).emask ∨ (t.anfds fd).emask = 0

section

omit [DecidableEq W]

theorem Keeps.refl (s : Fds W) : Keeps s s := ⟨fun _ => rfl, fun _ => .inl rfl⟩

theorem Keeps.trans (h : Keeps s t) (h' : Keeps t u) : Keeps s u := by
  refine ⟨fun fd => (h'.egen fd).trans (h.egen fd), fun fd => ?_⟩
  rcases h'.emask fd with he | he
  · rw [he]
    exact h.emask fd
  · exact .inr he

theorem keeps_setFd (s : Fds W) (fd : ℕ) (a : ANFD W) (hg : a.egen = (s.anfds fd).egen)
    (hm : a.emask = (s.anfds fd).emask ∨ a.emask = 0) : Keeps s (s.setFd fd a) := by
  constructor
  all_goals
    intro fd'
    simp only [setFd]
    by_cases h : fd' = fd
  · rw [h, Function.update_self, hg]
  · rw [Function.update_of_ne h]
  · rw [h, Function.update_self]
    exact hm
  · rw [Function.update_of_ne h]
    exact .inl rfl

/-- As `Keeps`, with the masks as they are. -/
structure Still (s t : Fds W) : Prop where
  egen : ∀ fd, (t.anfds fd).egen = (s.anfds fd).egen
  emask : ∀ fd, (t.anfds fd).emask = (s.anfds fd).emask
  events : ∀ fd, (t.anfds fd).events = (s.anfds fd).events

theorem Still.refl (s : Fds W) : Still s s := ⟨fun _ => rfl, fun _ => rfl, fun _ => rfl⟩

theorem Still.trans (h : Still s t) (h' : Still t u) : Still s u :=
  ⟨fun fd => (h'.egen fd).trans (h.egen fd), fun fd => (h'.emask fd).trans (h.emask fd),
    fun fd => (h'.events fd).trans (h.events fd)⟩

theorem Still.keeps (h : Still s t) : Keeps s t := ⟨h.egen, fun fd => .inl (h.emask fd)⟩

theorem still_setFd (s : Fds W) (fd : ℕ) (a : ANFD W) (hg : a.egen = (s.anfds fd).egen)
    (hm : a.emask = (s.anfds fd).emask) (he : a.events = (s.anfds fd).events) : Still s (s.setFd fd a) := by
  constructor
  all_goals
    intro fd'
    simp only [setFd]
    by_cases h : fd' = fd
  · rw [h, Function.update_self, hg]
  · rw [Function.update_of_ne h]
  · rw [h, Function.update_self, hm]
  · rw [Function.update_of_ne h]
  · rw [h, Function.update_self, he]
  · rw [Function.update_of_ne h]

theorem still_fdChange (s : Fds W) (fd : ℕ) (flags : BitVec 8) : Still s (s.fdChange fd flags) := by
  obtain ⟨h₁, h₂, h₃⟩ := still_setFd s fd { s.anfds fd with reify := (s.anfds fd).reify ||| flags } rfl rfl rfl
  exact ⟨h₁, h₂, h₃⟩

end

theorem still_start (s : Fds W) (w : W) : Still s (s.start w) := by
  obtain ⟨h₁, h₂, h₃⟩ :=
    still_setFd s (s.fd w) { s.anfds (s.fd w) with head := w :: (s.anfds (s.fd w)).head } rfl rfl rfl
  have hadd : Still s (s.wlistAdd w) := ⟨h₁, h₂, h₃⟩
  obtain ⟨h₁, h₂, h₃⟩ := hadd.trans (still_fdChange _ (s.fd w) ((s.events w &&& evIofdset).setWidth 8 ||| evAnfdReify))
  exact ⟨h₁, h₂, h₃⟩

theorem still_stop (s : Fds W) (w : W) : Still s (s.stop w) := by
  obtain ⟨h₁, h₂, h₃⟩ :=
    still_setFd s (s.fd w) { s.anfds (s.fd w) with head := (s.anfds (s.fd w)).head.erase w } rfl rfl rfl
  have hdel : Still s (s.wlistDel w) := ⟨h₁, h₂, h₃⟩
  exact hdel.trans (still_fdChange ..)

theorem still_modify (s : Fds W) (w : W) (events : Events) : Still s (s.modify w events) := by
  unfold modify
  dsimp only
  split
  · exact .refl s
  · split
    · obtain ⟨h₁, h₂, h₃⟩ := still_fdChange
        { s with events := Function.update s.events w ((s.events w &&& evIofdset) ||| (events &&& (evRead ||| evWrite))) }
        (s.fd w) 0
      exact ⟨h₁, h₂, h₃⟩
    · exact ⟨fun _ => rfl, fun _ => rfl, fun _ => rfl⟩

section

omit [DecidableEq W]

theorem keeps_rearm (s : Fds W) (fd : ℕ) : Keeps s (s.rearm fd) := by
  unfold rearm
  split
  · have hset := keeps_setFd s fd { s.anfds fd with events := 0, emask := 0 } rfl (.inr rfl)
    exact hset.trans (still_fdChange ..).keeps
  · exact .refl s

theorem keeps_rearmAll (s : Fds W) : Keeps s s.rearmAll := by
  unfold rearmAll
  generalize List.range s.anfdmax = l
  induction l generalizing s with
  | nil => exact .refl s
  | cons fd l ih => exact (keeps_rearm s fd).trans (ih _)

theorem keeps_reify (s : Fds W) (fd : ℕ) : Keeps s (s.reify fd) := keeps_setFd s fd _ rfl (.inl rfl)

end

end Fds

namespace Loop

variable {U T : Type} [DecidableEq U] {l l' : Loop U T Kernel} {fd : ℕ}

/-- The kernel refuses no fd that it has in its set; and a registration is the fd's, of its generation, with the
mask in `emask` unless that is 0. -/
structure Registered (l : Loop U T Kernel) : Prop where
  accepts : l.kernel.Accepts
  set : ∀ fd r, l.kernel.set fd = some r → r.fd = fd ∧ r.gen = l.tag fd ∧
    ((l.fds.anfds fd).emask = 0 ∨ r.events = kernelMask (l.fds.anfds fd).emask)

section

omit [DecidableEq U]

theorem Registered.keeps (h : l.Registered) (hk : l'.kernel.set = l.kernel.set)
    (ha : l'.kernel.answers = l.kernel.answers) (hf : Fds.Keeps l.fds l'.fds) : l'.Registered := by
  refine ⟨fun n => by rw [ha]; exact h.accepts n, fun fd r hr => ?_⟩
  rw [hk] at hr
  obtain ⟨h₁, h₂, h₃⟩ := h.set fd r hr
  refine ⟨h₁, by rw [h₂, tag, tag, hf.egen], ?_⟩
  rcases hf.emask fd with hm | hm
  · rw [hm]
    exact h₃
  · exact .inl hm

end

theorem kernel_fdKill {K : Type} (l : Loop U T K) (fd : ℕ) : (l.fdKill fd).kernel = l.kernel :=
  fdKillLoop_induction (P := fun l' => l'.kernel = l.kernel) l fd
    (fun l' w _ h => (kernel_evIoStop l' w).trans h) _ rfl

theorem still_evIoStart {K : Type} (l : Loop U T K) (w : IoW U) : Fds.Still l.fds (l.evIoStart w).fds := by
  rw [fds_evIoStart]
  split
  · exact .refl _
  · exact Fds.still_start _ w

theorem still_evIoStop {K : Type} (l : Loop U T K) (w : IoW U) : Fds.Still l.fds (l.evIoStop w).fds := by
  rw [fds_evIoStop]
  split
  · exact .refl _
  · exact Fds.still_stop _ w

theorem still_fdKill {K : Type} (l : Loop U T K) (fd : ℕ) : Fds.Still l.fds (l.fdKill fd).fds :=
  fdKillLoop_induction (P := fun l' => Fds.Still l.fds l'.fds) l fd
    (fun l' w _ h => h.trans (still_evIoStop l' w)) _ (.refl _)

/-! ### epoll_modify -/

theorem epollCtl_frame (op : CtlOp) (fd : ℕ) (ev : EpollEvent) (k : Kernel) :
    (epollCtl op fd ev k).1.answers = k.answers ∧ (epollCtl op fd ev k).1.eperms = k.eperms := by
  unfold epollCtl
  dsimp only
  split
  · exact ⟨rfl, rfl⟩
  · cases op with
    | add => cases k.set fd with
      | some r => exact ⟨rfl, rfl⟩
      | none =>
        dsimp only
        split
        · exact ⟨rfl, rfl⟩
        · exact ⟨rfl, rfl⟩
    | mod => cases k.set fd <;> exact ⟨rfl, rfl⟩
    | del => cases k.set fd <;> exact ⟨rfl, rfl⟩

/-- What `epoll_ctl` did to the set, by what it answered. -/
theorem epollCtl_set (op : CtlOp) (fd : ℕ) (ev : EpollEvent) {k : Kernel} (hk : k.Accepts) :
    match (epollCtl op fd ev k).2, op with
    | none, .del => (epollCtl op fd ev k).1.set = Function.update k.set fd none
    | none, _ => (epollCtl op fd ev k).1.set = Function.update k.set fd (some ev)
    | some .eexist, .add => (epollCtl op fd ev k).1.set = k.set ∧ ∃ r, k.set fd = some r
    | some _, _ => (epollCtl op fd ev k).1.set = k.set ∧ k.set fd = none := by
  unfold epollCtl
  dsimp only
  by_cases hans : k.answers k.ctls (k.set fd).isSome = .eperm
  · -- only an fd that is not in the set is refused
    have hnone : k.set fd = none := by
      cases hs : k.set fd with
      | none => rfl
      | some r =>
        rw [hs] at hans
        exact absurd hans (hk _)
    rw [if_pos hans]
    cases op <;> exact ⟨rfl, hnone⟩
  rw [if_neg hans]
  cases op with
  | add =>
    cases hs : k.set fd with
    | some r => exact ⟨rfl, r, rfl⟩
    | none =>
      dsimp only
      by_cases hres : k.answers k.ctls (none : Option EpollEvent).isSome = .resource
      · rw [if_pos hres]
        exact ⟨rfl, rfl⟩
      · rw [if_neg hres]
  | mod =>
    cases hs : k.set fd with
    | some r => rfl
    | none => exact ⟨rfl, rfl⟩
  | del =>
    cases hs : k.set fd with
    | some r => rfl
    | none => exact ⟨rfl, rfl⟩

/-- An fd that is not in the set is not found there. -/
theorem epollCtl_eexist {op : CtlOp} {fd : ℕ} {ev : EpollEvent} {k : Kernel}
    (h : (epollCtl op fd ev k).2 = some .eexist) : op = .add := by
  unfold epollCtl at h
  dsimp only at h
  split at h
  · cases h
  · cases op with
    | add => rfl
    | mod => cases hs : k.set fd <;> simp [hs] at h
    | del => cases hs : k.set fd <;> simp [hs] at h

theorem register_frame (fd : ℕ) (oev nev oldmask : BitVec 8) (ev : EpollEvent) (k : Kernel) :
    (register fd oev nev oldmask ev k).1.answers = k.answers ∧
      (register fd oev nev oldmask ev k).1.eperms = k.eperms := by
  unfold register
  have hk₁ := epollCtl_frame (if oev ≠ 0 ∧ oldmask ≠ nev then .mod else .add) fd ev k
  generalize epollCtl (if oev ≠ 0 ∧ oldmask ≠ nev then .mod else .add) fd ev k = q at hk₁ ⊢
  obtain ⟨k₁, r⟩ := q
  dsimp only at hk₁
  rw [← hk₁.1, ← hk₁.2]
  cases r with
  | none => exact ⟨rfl, rfl⟩
  | some errno =>
    cases errno with
    | enoent =>
      have hk₂ := epollCtl_frame .add fd ev k₁
      dsimp only
      generalize epollCtl .add fd ev k₁ = q₂ at hk₂ ⊢
      obtain ⟨k₂, r₂⟩ := q₂
      cases r₂ <;> exact hk₂
    | eexist =>
      dsimp only
      split
      · exact ⟨rfl, rfl⟩
      · have hk₂ := epollCtl_frame .mod fd ev k₁
        generalize epollCtl .mod fd ev k₁ = q₂ at hk₂ ⊢
        obtain ⟨k₂, r₂⟩ := q₂
        cases r₂ <;> exact hk₂
    | eperm => exact ⟨rfl, rfl⟩
    | resource => exact ⟨rfl, rfl⟩

theorem register_set (fd : ℕ) (oev nev oldmask : BitVec 8) (ev : EpollEvent) {k : Kernel} (hk : k.Accepts) :
    match (register fd oev nev oldmask ev k).2 with
    | .done => (register fd oev nev oldmask ev k).1.set = Function.update k.set fd (some ev)
    | .eperm => (register fd oev nev oldmask ev k).1.set = k.set ∧ k.set fd = none
    | .decEgen => (register fd oev nev oldmask ev k).1.set = k.set ∧ (∃ r, k.set fd = some r) ∧ oldmask = nev
    | .kill => (register fd oev nev oldmask ev k).1.set = k.set ∧ k.set fd = none := by
  unfold register
  obtain ⟨op, hop⟩ : ∃ op, op = if oev ≠ 0 ∧ oldmask ≠ nev then CtlOp.mod else .add := ⟨_, rfl⟩
  have hndel : op ≠ .del := by
    rw [hop]
    split
    · exact nofun
    · exact nofun
  rw [← hop]
  have hset := epollCtl_set op fd ev hk
  have hans := (epollCtl_frame op fd ev k).1
  generalize hq : epollCtl op fd ev k = q at hset hans
  obtain ⟨k₁, r⟩ := q
  have hk₁ : k₁.Accepts := fun n => by rw [show k₁.answers = _ from hans]; exact hk n
  -- by what the first call answered
  cases r with
  | none => cases op with
    | add => exact hset
    | mod => exact hset
    | del => exact absurd rfl hndel
  | some errno =>
    cases errno with
    | enoent =>
      obtain ⟨hsame, hnone⟩ : k₁.set = k.set ∧ k.set fd = none := by cases op <;> exact hset
      have hset₂ := epollCtl_set .add fd ev hk₁
      rw [hsame] at hset₂
      dsimp only
      generalize epollCtl .add fd ev k₁ = q₂ at hset₂ ⊢
      obtain ⟨k₂, r₂⟩ := q₂
      cases r₂ with
      | none => exact hset₂
      | some e => cases e with
        | eexist => exact ⟨hset₂.1, hnone⟩
        | enoent => exact hset₂
        | eperm => exact hset₂
        | resource => exact hset₂
    | eexist =>
      have hadd : op = .add := epollCtl_eexist (congrArg Prod.snd hq)
      subst hadd
      obtain ⟨hsame, r, hr⟩ : k₁.set = k.set ∧ ∃ r, k.set fd = some r := hset
      dsimp only
      by_cases hold : oldmask = nev
      · rw [if_pos hold]
        exact ⟨hsame, ⟨r, hr⟩, hold⟩
      · rw [if_neg hold]
        have hset₂ := epollCtl_set .mod fd ev hk₁
        rw [hsame] at hset₂
        generalize epollCtl .mod fd ev k₁ = q₂ at hset₂ ⊢
        obtain ⟨k₂, r₂⟩ := q₂
        cases r₂ with
        | none => exact hset₂
        | some e => cases e <;> exact hset₂
    | eperm => cases op <;> exact hset
    | resource => cases op <;> exact hset

section setters

variable (fd' : ℕ) (emask : BitVec 8) (egen : ℕ)

section

omit [DecidableEq U]

theorem tag_setEmask : (l.setEmask fd' emask).tag = l.tag := by
  funext fd
  unfold tag setEmask Fds.setEmask
  by_cases h : fd = fd'
  · rw [h]
    simp
  · simp [h]

theorem tag_setEgen_ne (h : fd ≠ fd') : (l.setEgen fd' egen).tag fd = l.tag fd := by
  simp [tag, setEgen, Fds.setEgen, h]

@[simp] theorem egen_setEgen : ((l.setEgen fd' egen).fds.anfds fd').egen = egen := by
  simp [setEgen, Fds.setEgen]

@[simp] theorem emask_setEgen : ((l.setEgen fd' egen).fds.anfds fd).emask = (l.fds.anfds fd).emask := by
  by_cases h : fd = fd'
  · simp [setEgen, Fds.setEgen, h]
  · simp [setEgen, Fds.setEgen, h]

theorem emask_setEmask :
    ((l.setEmask fd' emask).fds.anfds fd).emask = if fd = fd' then emask else (l.fds.anfds fd).emask := by
  by_cases h : fd = fd'
  · simp [setEmask, Fds.setEmask, h]
  · simp [setEmask, Fds.setEmask, h]

end

end setters

/-- `epoll_modify`, by what its calls of `epoll_ctl` came to. -/
theorem epollModify_eq {l₁ : Loop U T Kernel} {nev : BitVec 8} (fd : ℕ) (oev : BitVec 8) (hn : nev ≠ 0)
    (hl₁ : l₁ = (l.setEmask fd nev).setEgen fd ((l.fds.anfds fd).egen + 1)) :
    l₁.kernel = l.kernel ∧ l₁.tag fd = BitVec.ofNat 32 ((l.fds.anfds fd).egen + 1) ∧
    epollModify fd oev nev l =
      match register fd oev nev (l.fds.anfds fd).emask
        ⟨kernelMask nev, fd, BitVec.ofNat 32 ((l.fds.anfds fd).egen + 1)⟩ l.kernel with
      | (k, .done) => { l₁ with kernel := k }
      | (k, .eperm) =>
        { l₁.setEmask fd evEmaskEperm with
          kernel := if (l.fds.anfds fd).emask &&& evEmaskEperm = 0 then { k with eperms := k.eperms ++ [fd] } else k }
      | (k, .decEgen) => ({ l₁ with kernel := k } : Loop U T Kernel).setEgen fd (l.fds.anfds fd).egen
      | (k, .kill) => (({ l₁ with kernel := k } : Loop U T Kernel).fdKill fd).setEgen fd (l.fds.anfds fd).egen := by
  have hk₁ : l₁.kernel = l.kernel := by rw [hl₁]; rfl
  have htag : l₁.tag fd = BitVec.ofNat 32 ((l.fds.anfds fd).egen + 1) := by
    rw [hl₁, tag, egen_setEgen]
  refine ⟨hk₁, htag, ?_⟩
  obtain ⟨⟨k, out⟩, hq⟩ : ∃ q, register fd oev nev (l.fds.anfds fd).emask
      ⟨kernelMask nev, fd, BitVec.ofNat 32 ((l.fds.anfds fd).egen + 1)⟩ l.kernel = q := ⟨_, rfl⟩
  unfold epollModify
  rw [if_neg hn]
  cases out <;> simp only [← hl₁, hk₁, htag, hq]

/-- A call of `epoll_modify` keeps what is registered; and unless `epoll_ctl` makes it give up the fd, it leaves
the fd registered as asked for, or flagged. -/
theorem Registered.modify (h : l.Registered) (fd : ℕ) (oev : BitVec 8) {nev : BitVec 8} (hn : nev ≠ 0) :
    (epollModify fd oev nev l).Registered ∧
      (¬ Unusable fd oev nev l →
        (epollModify fd oev nev l).kernel.set fd =
          some ⟨kernelMask nev, fd, (epollModify fd oev nev l).tag fd⟩ ∨
        ((epollModify fd oev nev l).fds.anfds fd).emask = evEmaskEperm) := by
  obtain ⟨l₁, hl₁⟩ : ∃ l₁, l₁ = (l.setEmask fd nev).setEgen fd ((l.fds.anfds fd).egen + 1) := ⟨_, rfl⟩
  obtain ⟨hk₁, htag₁, heq⟩ := epollModify_eq fd oev hn hl₁
  have hemask : (l₁.fds.anfds fd).emask = nev := by rw [hl₁, emask_setEgen, emask_setEmask, if_pos rfl]
  have hother : ∀ fd', fd' ≠ fd → l₁.tag fd' = l.tag fd' ∧ (l₁.fds.anfds fd').emask = (l.fds.anfds fd').emask := by
    intro fd' hne
    rw [hl₁, emask_setEgen, emask_setEmask, if_neg hne, tag_setEgen_ne _ _ hne, tag_setEmask]
    exact ⟨rfl, rfl⟩
  have hun : ¬ Unusable fd oev nev l → (register fd oev nev (l.fds.anfds fd).emask
      ⟨kernelMask nev, fd, BitVec.ofNat 32 ((l.fds.anfds fd).egen + 1)⟩ l.kernel).2 ≠ .kill :=
    fun hno hr => hno ⟨hn, hr⟩
  have hset := register_set fd oev nev (l.fds.anfds fd).emask
    ⟨kernelMask nev, fd, BitVec.ofNat 32 ((l.fds.anfds fd).egen + 1)⟩ h.accepts
  have hans := (register_frame fd oev nev (l.fds.anfds fd).emask
    ⟨kernelMask nev, fd, BitVec.ofNat 32 ((l.fds.anfds fd).egen + 1)⟩ l.kernel).1
  rw [heq]
  generalize register fd oev nev (l.fds.anfds fd).emask
    ⟨kernelMask nev, fd, BitVec.ofNat 32 ((l.fds.anfds fd).egen + 1)⟩ l.kernel = q at hset hans hun ⊢
  obtain ⟨k, out⟩ := q
  -- the registrations of the other fds are as they were
  have hkeep : ∀ l₂ : Loop U T Kernel, l₂.kernel.answers = k.answers →
      (∀ fd', fd' ≠ fd → l₂.kernel.set fd' = l.kernel.set fd') →
      (∀ fd', fd' ≠ fd → l₂.tag fd' = l₁.tag fd' ∧ (l₂.fds.anfds fd').emask = (l₁.fds.anfds fd').emask) →
      (∀ r, l₂.kernel.set fd = some r → r.fd = fd ∧ r.gen = l₂.tag fd ∧
        ((l₂.fds.anfds fd).emask = 0 ∨ r.events = kernelMask (l₂.fds.anfds fd).emask)) → l₂.Registered := by
    intro l₂ ha hset hk hfd
    refine ⟨fun n => by rw [ha, show k.answers = _ from hans]; exact h.accepts n, fun fd' q hq => ?_⟩
    by_cases hne : fd' = fd
    · rw [hne] at hq ⊢
      exact hfd q hq
    · rw [hset fd' hne] at hq
      obtain ⟨ht, he⟩ := hother fd' hne
      obtain ⟨ht', he'⟩ := hk fd' hne
      rw [ht', ht, he', he]
      exact h.set fd' q hq
  cases out with
  | done =>
    dsimp only at hset ⊢
    have hreg : k.set fd = some ⟨kernelMask nev, fd, l₁.tag fd⟩ := by rw [hset, Function.update_self, htag₁]
    refine ⟨hkeep _ rfl (fun fd' hne => ?_) (fun _ _ => ⟨rfl, rfl⟩) fun r hr => ?_, fun _ => .inl hreg⟩
    · show k.set fd' = l.kernel.set fd'
      rw [hset, Function.update_of_ne hne]
    · replace hr : k.set fd = some r := hr
      rw [hreg] at hr
      cases hr
      exact ⟨rfl, rfl, .inr (by rw [hemask])⟩
  | eperm =>
    obtain ⟨hset, hnone⟩ := hset
    dsimp only at hset ⊢
    have hsame : ∀ k', k' = (if (l.fds.anfds fd).emask &&& evEmaskEperm = 0 then { k with eperms := k.eperms ++ [fd] }
        else k) → k'.set = l.kernel.set ∧ k'.answers = k.answers := by
      rintro k' rfl
      split
      · exact ⟨hset, rfl⟩
      · exact ⟨hset, rfl⟩
    obtain ⟨hsame, ha⟩ := hsame _ rfl
    refine ⟨hkeep _ ha (fun fd' _ => by rw [hsame]) (fun fd' hne => ?_) fun r hr => ?_, fun _ => .inr ?_⟩
    · exact ⟨congrFun (tag_setEmask fd evEmaskEperm) fd', by rw [emask_setEmask, if_neg hne]⟩
    · rw [hsame, hnone] at hr
      cases hr
    · rw [emask_setEmask, if_pos rfl]
  | decEgen =>
    obtain ⟨hset, ⟨r, hreg⟩, hold⟩ := hset
    dsimp only at hset ⊢
    obtain ⟨h₁, h₂, h₃⟩ := h.set fd r hreg
    have hev : r.events = kernelMask nev := by
      rcases h₃ with h₃ | h₃
      · exact absurd (hold.symm.trans h₃) hn
      · rw [h₃, hold]
    have htag : (({ l₁ with kernel := k } : Loop U T Kernel).setEgen fd (l.fds.anfds fd).egen).tag fd = l.tag fd := by
      rw [tag, egen_setEgen, tag]
    refine ⟨hkeep _ rfl (fun fd' _ => congrFun hset fd') (fun fd' hne => ?_) fun r' hr' => ?_, fun _ => .inl ?_⟩
    · rw [tag_setEgen_ne _ _ hne, emask_setEgen]
      exact ⟨rfl, rfl⟩
    · replace hr' : k.set fd = some r' := hr'
      rw [hset, hreg] at hr'
      cases hr'
      refine ⟨h₁, by rw [htag, h₂], .inr ?_⟩
      rw [emask_setEgen]
      exact hev.trans (by rw [show (({ l₁ with kernel := k } : Loop U T Kernel).fds.anfds fd).emask = nev from hemask])
    · show k.set fd = _
      rw [hset, hreg, htag, ← h₂, ← hev, ← h₁]
  | kill =>
    obtain ⟨hset, hnone⟩ := hset
    dsimp only at hset ⊢
    have hk := kernel_fdKill ({ l₁ with kernel := k } : Loop U T Kernel) fd
    have hkk := still_fdKill ({ l₁ with kernel := k } : Loop U T Kernel) fd
    refine ⟨hkeep _ (congrArg Kernel.answers hk) (fun fd' _ => ?_) (fun fd' hne => ?_) fun r hr => ?_,
      fun hno => absurd rfl (hun hno)⟩
    · show (({ l₁ with kernel := k } : Loop U T Kernel).fdKill fd).kernel.set fd' = _
      rw [hk]
      exact congrFun hset fd'
    · rw [tag_setEgen_ne _ _ hne, emask_setEgen]
      exact ⟨by rw [tag, hkk.egen]; rfl, hkk.emask fd'⟩
    · replace hr : (({ l₁ with kernel := k } : Loop U T Kernel).fdKill fd).kernel.set fd = some r := hr
      rw [hk, hset, hnone] at hr
      cases hr

section

omit [DecidableEq U]

/-- One round of `fd_reify`, before the call of `epoll_modify` it may make. -/
theorem Registered.reifying (h : l.Registered) (fd : ℕ) :
    ({ l with fds := l.fds.reify fd } : Loop U T Kernel).Registered :=
  h.keeps rfl rfl (Fds.keeps_reify l.fds fd)

end

theorem Registered.reifyOne (h : l.Registered) (fd : ℕ) : (fdReifyOne epollModify l fd).Registered := by
  unfold fdReifyOne
  dsimp only
  split
  · exact h.reifying fd
  · rename_i oev nev _
    by_cases hn : nev = 0
    · rw [epollModify, if_pos hn]
      exact h.reifying fd
    · exact ((h.reifying fd).modify fd oev hn).1

theorem Registered.reifyFold (queue : List ℕ) : ∀ {l : Loop U T Kernel}, l.Registered →
    (queue.foldl (fdReifyOne epollModify) l).Registered := by
  induction queue with
  | nil => exact fun h => h
  | cons fd queue ih => exact fun h => ih (h.reifyOne fd)

theorem Registered.fdReify (h : l.Registered) : (l.fdReify epollModify).Registered :=
  (Registered.reifyFold _ h).keeps rfl rfl ⟨fun _ => rfl, fun _ => .inl rfl⟩

/-! ### epoll_poll -/

/-- Feeding events changes the pending ones only. -/
theorem fdEventNocheck_eq {K : Type} (l : Loop U T K) (fd : ℕ) (revents : Events) :
    ∃ p, l.fdEventNocheck fd revents = { l with pend := p } ∧
      ∀ n, ({ l with postfork := n } : Loop U T K).fdEventNocheck fd revents = { l with pend := p, postfork := n } := by
  unfold fdEventNocheck
  dsimp only
  generalize (l.fds.anfds fd).head = ws
  have hfold : ∀ (ws : List (IoW U)) (l : Loop U T K), ∃ p,
      ws.foldl (fun l w =>
        if l.fds.events w &&& revents ≠ 0 then l.evFeedEvent (.io w) (l.fds.events w &&& revents) else l) l =
          { l with pend := p } ∧
      ∀ n, ws.foldl (fun l w =>
        if l.fds.events w &&& revents ≠ 0 then l.evFeedEvent (.io w) (l.fds.events w &&& revents) else l)
          ({ l with postfork := n } : Loop U T K) = { l with pend := p, postfork := n } := by
    intro ws
    induction ws with
    | nil => exact fun l => ⟨l.pend, rfl, fun _ => rfl⟩
    | cons w ws ih =>
      intro l
      simp only [List.foldl_cons]
      by_cases hw : l.fds.events w &&& revents ≠ 0
      · rw [if_pos hw]
        obtain ⟨p, h₁, h₂⟩ := ih (l.evFeedEvent (.io w) (l.fds.events w &&& revents))
        refine ⟨p, h₁, fun n => ?_⟩
        rw [if_pos (by exact hw)]
        exact h₂ n
      · rw [if_neg hw]
        obtain ⟨p, h₁, h₂⟩ := ih l
        refine ⟨p, h₁, fun n => ?_⟩
        rw [if_neg (by exact hw)]
        exact h₂ n
  exact hfold ws l

theorem fdEvent_eq {K : Type} (l : Loop U T K) (fd : ℕ) (revents : Events) :
    ∃ p, l.fdEvent fd revents = { l with pend := p } ∧
      ∀ n, ({ l with postfork := n } : Loop U T K).fdEvent fd revents = { l with pend := p, postfork := n } := by
  unfold fdEvent
  split
  · obtain ⟨p, h₁, h₂⟩ := l.fdEventNocheck_eq fd revents
    exact ⟨p, h₁, h₂⟩
  · exact ⟨l.pend, rfl, fun _ => rfl⟩

theorem Registered.fdEvent (h : l.Registered) (fd : ℕ) (revents : Events) : (l.fdEvent fd revents).Registered := by
  obtain ⟨p, hp, -⟩ := l.fdEvent_eq fd revents
  rw [hp]
  exact h.keeps rfl rfl ⟨fun _ => rfl, fun _ => .inl rfl⟩

theorem Registered.event (h : l.Registered) (ev : EpollEvent) : (epollEvent l ev).Registered := by
  unfold epollEvent
  by_cases hmax : l.fds.anfdmax ≤ ev.fd
  · rw [if_pos hmax]
    exact h
  rw [if_neg hmax]
  by_cases htag : l.tag ev.fd ≠ ev.gen
  · rw [if_pos htag]
    exact h.keeps rfl rfl ⟨fun _ => rfl, fun _ => .inl rfl⟩
  rw [if_neg htag]
  rw [not_not] at htag
  dsimp only
  by_cases hgot : got ev.events &&& ~~~(l.fds.anfds ev.fd).events ≠ 0
  · rw [if_pos hgot]
    -- the registration becomes the mask now in `emask`, or was not there
    have hset := epollCtl_set (if (l.fds.anfds ev.fd).events ≠ 0 then .mod else .del) ev.fd
      { ev with events := kernelMask (l.fds.anfds ev.fd).events } h.accepts
    have hans := (epollCtl_frame (if (l.fds.anfds ev.fd).events ≠ 0 then .mod else .del) ev.fd
      { ev with events := kernelMask (l.fds.anfds ev.fd).events } l.kernel).1
    rw [show (l.setEmask ev.fd (l.fds.anfds ev.fd).events).kernel = l.kernel from rfl]
    generalize epollCtl (if (l.fds.anfds ev.fd).events ≠ 0 then .mod else .del) ev.fd
      { ev with events := kernelMask (l.fds.anfds ev.fd).events } l.kernel = q at hans hset ⊢
    obtain ⟨k, err⟩ := q
    have hkeep : (∀ fd', fd' ≠ ev.fd → k.set fd' = l.kernel.set fd') →
        (∀ r, k.set ev.fd = some r → r = { ev with events := kernelMask (l.fds.anfds ev.fd).events }) →
        ({ l.setEmask ev.fd (l.fds.anfds ev.fd).events with kernel := k } : Loop U T Kernel).Registered := by
      intro hother hfd
      refine ⟨fun n => by rw [show k.answers = _ from hans]; exact h.accepts n, fun fd' r hr => ?_⟩
      have ht := tag_setEmask (l := l) ev.fd (l.fds.anfds ev.fd).events
      have he : ((l.setEmask ev.fd (l.fds.anfds ev.fd).events).fds.anfds fd').emask =
          if fd' = ev.fd then (l.fds.anfds ev.fd).events else (l.fds.anfds fd').emask := emask_setEmask _ _
      show r.fd = fd' ∧ r.gen = (l.setEmask ev.fd (l.fds.anfds ev.fd).events).tag fd' ∧ _
      rw [ht]
      by_cases hne : fd' = ev.fd
      · rw [hne] at hr
        obtain rfl := hfd r hr
        refine ⟨hne.symm, by rw [hne]; exact htag.symm, .inr ?_⟩
        rw [if_pos hne] at he
        exact congrArg kernelMask he.symm
      · replace hr : k.set fd' = some r := hr
        rw [hother fd' hne] at hr
        obtain ⟨h₁, h₂, h₃⟩ := h.set fd' r hr
        rw [if_neg hne] at he
        refine ⟨h₁, h₂, ?_⟩
        rw [show (({ l.setEmask ev.fd (l.fds.anfds ev.fd).events with kernel := k } : Loop U T Kernel).fds.anfds
          fd').emask = (l.fds.anfds fd').emask from he]
        exact h₃
    cases err with
    | none =>
      dsimp only at hset ⊢
      refine Registered.fdEvent ?_ ev.fd _
      by_cases hw : (l.fds.anfds ev.fd).events ≠ 0
      · rw [if_pos hw] at hset
        refine hkeep (fun fd' hne => by rw [hset, Function.update_of_ne hne]) fun r hr => ?_
        rw [hset, Function.update_self] at hr
        exact (Option.some.inj hr).symm
      · rw [if_neg hw] at hset
        refine hkeep (fun fd' hne => by rw [hset, Function.update_of_ne hne]) fun r hr => ?_
        rw [hset, Function.update_self] at hr
        cases hr
    | some e =>
      dsimp only at hset ⊢
      have hnone : k.set = l.kernel.set ∧ l.kernel.set ev.fd = none := by
        by_cases hw : (l.fds.anfds ev.fd).events ≠ 0
        · rw [if_pos hw] at hset
          cases e <;> exact hset
        · rw [if_neg hw] at hset
          cases e <;> exact hset
      have hreg := hkeep (fun fd' _ => by rw [hnone.1]) fun r hr => by
        rw [hnone.1, hnone.2] at hr
        cases hr
      exact hreg.keeps rfl rfl ⟨fun _ => rfl, fun _ => .inl rfl⟩
  · rw [if_neg hgot]
    exact h.fdEvent _ _

theorem kernel_fdEvent {K : Type} (l : Loop U T K) (fd : ℕ) (revents : Events) :
    (l.fdEvent fd revents).kernel = l.kernel := by
  obtain ⟨p, hp, -⟩ := l.fdEvent_eq fd revents
  rw [hp]

theorem Registered.perm (h : l.Registered) (i : ℕ) : (epollEperm l i).Registered := by
  unfold epollEperm
  split
  · exact h
  · rename_i fd _
    dsimp only
    split
    · exact h.fdEvent _ _
    · obtain ⟨h₁, h₂⟩ := Fds.keeps_setFd l.fds fd { l.fds.anfds fd with emask := 0 } rfl (.inr rfl)
      exact h.keeps rfl rfl ⟨h₁, h₂⟩

theorem Registered.poll (h : l.Registered) (evs : List EpollEvent) : (l.epollPoll evs).Registered := by
  have hevs : (evs.foldl epollEvent l).Registered := by
    induction evs generalizing l with
    | nil => exact h
    | cons ev evs ih => exact ih (h.event ev)
  unfold epollPoll
  dsimp only
  generalize (List.range (evs.foldl epollEvent l).kernel.eperms.length).reverse = is
  generalize evs.foldl epollEvent l = l₁ at hevs ⊢
  induction is generalizing l₁ with
  | nil => exact hevs
  | cons i is ih => exact ih _ (hevs.perm i)

section

omit [DecidableEq U]

theorem Registered.fork (h : l.Registered) : l.epollFork.Registered :=
  ⟨h.accepts, fun _ _ hr => (by cases hr)⟩

theorem Registered.close (h : l.Registered) (fd : ℕ) :
    ({ l with kernel := { l.kernel with set := Function.update l.kernel.set fd none } } : Loop U T Kernel).Registered := by
  refine ⟨h.accepts, fun fd' r hr => h.set fd' r ?_⟩
  replace hr : Function.update l.kernel.set fd none fd' = some r := hr
  by_cases hfd : fd' = fd
  · rw [hfd, Function.update_self] at hr
    cases hr
  · rwa [Function.update_of_ne hfd] at hr

end

/-! ### Events of another generation -/

/-- Everything but the request to create the kernel state again. -/
def settled (l : Loop U T Kernel) : Loop U T Kernel := { l with postfork := 0 }

theorem epollEvent_settled (l : Loop U T Kernel) (ev : EpollEvent) :
    (epollEvent l ev).settled = (epollEvent l.settled ev).settled := by
  unfold epollEvent
  simp only [show l.settled.fds = l.fds from rfl, show ∀ fd, l.settled.tag fd = l.tag fd from fun _ => rfl]
  by_cases hmax : l.fds.anfdmax ≤ ev.fd
  · rw [if_pos hmax, if_pos hmax]
    rfl
  rw [if_neg hmax, if_neg hmax]
  by_cases htag : l.tag ev.fd ≠ ev.gen
  · rw [if_pos htag, if_pos htag]
    rfl
  rw [if_neg htag, if_neg htag]
  by_cases hgot : got ev.events &&& ~~~(l.fds.anfds ev.fd).events ≠ 0
  · rw [if_pos hgot, if_pos hgot, show (l.setEmask ev.fd (l.fds.anfds ev.fd).events).kernel = l.kernel from rfl,
      show (l.settled.setEmask ev.fd (l.fds.anfds ev.fd).events).kernel = l.kernel from rfl]
    generalize epollCtl (if (l.fds.anfds ev.fd).events ≠ 0 then .mod else .del) ev.fd
      { ev with events := kernelMask (l.fds.anfds ev.fd).events } l.kernel = q
    obtain ⟨k, err⟩ := q
    cases err with
    | none =>
      dsimp only
      obtain ⟨p, h₁, h₂⟩ := fdEvent_eq ({ l.setEmask ev.fd (l.fds.anfds ev.fd).events with kernel := k } :
        Loop U T Kernel) ev.fd ((got ev.events).setWidth 32)
      rw [h₁]
      exact (congrArg settled (h₂ 0)).symm
    | some e => rfl
  · rw [if_neg hgot, if_neg hgot]
    obtain ⟨p, h₁, h₂⟩ := fdEvent_eq l ev.fd ((got ev.events).setWidth 32)
    rw [h₁]
    exact (congrArg settled (h₂ 0)).symm

theorem epollEperm_settled (l : Loop U T Kernel) (i : ℕ) :
    (epollEperm l i).settled = (epollEperm l.settled i).settled := by
  unfold epollEperm
  rw [show l.settled.kernel = l.kernel from rfl, show l.settled.fds = l.fds from rfl]
  split
  · rfl
  · rename_i fd _
    dsimp only
    split
    · obtain ⟨p, h₁, h₂⟩ := fdEvent_eq l fd (((l.fds.anfds fd).events &&& (readBit ||| writeBit)).setWidth 32)
      rw [h₁]
      exact (congrArg settled (h₂ 0)).symm
    · rfl

section

omit [DecidableEq U]

theorem foldl_settled {A : Type} {f : Loop U T Kernel → A → Loop U T Kernel}
    (hf : ∀ l a, (f l a).settled = (f l.settled a).settled) (as : List A) :
    ∀ {l l' : Loop U T Kernel}, l.settled = l'.settled → (as.foldl f l).settled = (as.foldl f l').settled := by
  induction as with
  | nil => exact fun h => h
  | cons a as ih => exact fun h => ih (by rw [hf, h, ← hf])

end

theorem tag_epollEvent (l : Loop U T Kernel) (ev : EpollEvent) : (epollEvent l ev).tag = l.tag := by
  have hfed : ∀ (l : Loop U T Kernel) (fd : ℕ) (revents : Events), (l.fdEvent fd revents).tag = l.tag := by
    intro l fd revents
    obtain ⟨p, hp, -⟩ := l.fdEvent_eq fd revents
    rw [hp]
    rfl
  unfold epollEvent
  split
  · rfl
  · split
    · rfl
    · dsimp only
      split
      · split
        · rw [hfed]
          exact tag_setEmask ..
        · exact tag_setEmask ..
      · exact hfed ..

/-- The events of another generation do nothing but ask for a new kernel state. -/
theorem epollPoll_stale (l : Loop U T Kernel) (evs : List EpollEvent) :
    (l.epollPoll evs).settled = (l.epollPoll (evs.filter fun ev => l.tag ev.fd = ev.gen)).settled := by
  have hevs : ∀ l' : Loop U T Kernel, l'.tag = l.tag →
      (evs.foldl epollEvent l').settled =
        ((evs.filter fun ev => l.tag ev.fd = ev.gen).foldl epollEvent l').settled := by
    induction evs with
    | nil => exact fun _ _ => rfl
    | cons ev evs ih =>
      intro l' hl'
      by_cases hev : l.tag ev.fd = ev.gen
      · rw [List.filter_cons_of_pos (by simpa using hev)]
        exact ih _ ((tag_epollEvent ..).trans hl')
      · rw [List.filter_cons_of_neg (by simpa using hev), List.foldl_cons, ih _ ((tag_epollEvent ..).trans hl')]
        refine foldl_settled epollEvent_settled _ ?_
        unfold epollEvent
        split
        · rfl
        · rw [if_pos (by rw [hl']; exact hev)]
          rfl
  have h := hevs l rfl
  have hk : (evs.foldl epollEvent l).kernel =
      ((evs.filter fun ev => l.tag ev.fd = ev.gen).foldl epollEvent l).kernel := by
    have hk := congrArg Loop.kernel h
    exact hk
  unfold epollPoll
  dsimp only
  rw [hk]
  exact foldl_settled epollEperm_settled _ h

end Loop

/-! ### Runs -/

namespace Epoll

variable {U T : Type} [DecidableEq U] {l : Loop U T Kernel}

/-- The user's calls, `fd_reify`, `epoll_poll` with what the kernel reports, a fork, and the close
of an fd, which may then be opened again. -/
inductive Act (U : Type)
  | ioSet (w : IoW U) (fd : ℕ) (events : Events)
  | ioStart (w : IoW U)
  | ioStop (w : IoW U)
  | ioModify (w : IoW U) (events : Events)
  | fdReify
  | close (fd : ℕ)
  | poll (evs : List EpollEvent)
  | fork

def step (l : Loop U T Kernel) : Act U → Loop U T Kernel
  | .ioSet w fd events => l.evIoSet w fd events
  | .ioStart w => l.evIoStart w
  | .ioStop w => l.evIoStop w
  | .ioModify w events => l.evIoModify w events
  | .fdReify => l.fdReify Loop.epollModify
  | .close fd => { l with kernel := { l.kernel with set := Function.update l.kernel.set fd none } }
  | .poll evs => l.epollPoll evs
  | .fork => l.epollFork

theorem registered_step (h : l.Registered) (a : Act U) : (step l a).Registered := by
  cases a with
  | ioSet w fd events => exact h.keeps rfl rfl ⟨fun _ => rfl, fun _ => .inl rfl⟩
  | ioStart w =>
    have hk : (l.evIoStart w).kernel = l.kernel := Loop.kernel_evIoStart ..
    exact h.keeps (congrArg Kernel.set hk) (congrArg Kernel.answers hk) (Loop.still_evIoStart l w).keeps
  | ioStop w =>
    have hk : (l.evIoStop w).kernel = l.kernel := Loop.kernel_evIoStop ..
    exact h.keeps (congrArg Kernel.set hk) (congrArg Kernel.answers hk) (Loop.still_evIoStop l w).keeps
  | ioModify w events => exact h.keeps rfl rfl (Fds.still_modify ..).keeps
  | fdReify => exact h.fdReify
  | close fd => exact h.close fd
  | poll evs => exact h.poll evs
  | fork => exact h.fork

/-- The loop after these actions, with a kernel that answers so to a call for an fd that is not in its set. -/
def run [Inhabited U] [Zero T] (noinotify signalfd notimerfd : Bool) (answers : ℕ → Answer) (acts : List (Act U)) :
    Loop U T Kernel :=
  acts.foldl step (.init .epoll noinotify signalfd notimerfd (.init (accepting answers)))

theorem registered_run [Inhabited U] [Zero T] (noinotify signalfd notimerfd : Bool) (answers : ℕ → Answer)
    (acts : List (Act U)) : (run noinotify signalfd notimerfd answers acts : Loop U T Kernel).Registered := by
  have hfold : ∀ l : Loop U T Kernel, l.Registered → (acts.foldl step l).Registered := by
    induction acts with
    | nil => exact fun _ h => h
    | cons a acts ih => exact fun l h => ih (step l a) (registered_step h a)
  exact hfold _ ⟨accepts_accepting answers, fun _ _ hr => (by cases hr)⟩

/-- The loop in which `fd_reify` calls `epoll_modify` for an fd, when it has been through the fds in `past`. -/
def reifying (l : Loop U T Kernel) (past : List ℕ) (fd : ℕ) : Loop U T Kernel :=
  let l := past.foldl (Loop.fdReifyOne Loop.epollModify) l
  { l with fds := l.fds.reify fd }

/-- In every run, a call of `epoll_modify` by `fd_reify` for a mask other than 0, unless `epoll_ctl` makes it give
up the fd, leaves the fd registered with that mask and its generation, or flagged; what is registered carries the
fd's generation and the mask in `emask`, unless that is 0; and the events of another generation do nothing but
ask for a new kernel state. -/
theorem epoll_registration [Inhabited U] [Zero T] (noinotify signalfd notimerfd : Bool) (answers : ℕ → Answer)
    (acts : List (Act U)) :
    let l : Loop U T Kernel := run noinotify signalfd notimerfd answers acts
    (∀ past fd later, l.fds.fdchanges = past ++ fd :: later →
      ∀ oev nev, nev ≠ 0 → ¬ Unusable fd oev nev (reifying l past fd) →
        ∀ m, m = Loop.epollModify fd oev nev (reifying l past fd) →
          m.kernel.set fd = some ⟨kernelMask nev, fd, m.tag fd⟩ ∨ (m.fds.anfds fd).emask = evEmaskEperm) ∧
    (∀ fd r, l.kernel.set fd = some r → r.fd = fd ∧ r.gen = l.tag fd ∧
      ((l.fds.anfds fd).emask = 0 ∨ r.events = kernelMask (l.fds.anfds fd).emask)) ∧
    ∀ evs, (l.epollPoll evs).settled = (l.epollPoll (evs.filter fun ev => l.tag ev.fd = ev.gen)).settled := by
  intro l
  have h : l.Registered := registered_run noinotify signalfd notimerfd answers acts
  refine ⟨fun past fd later _ oev nev hn hun m hm => ?_, h.set, l.epollPoll_stale⟩
  subst hm
  exact (((h.reifyFold past).reifying fd).modify fd oev hn).2 hun

/-- The fd of a reading watcher is registered, and what the kernel reported of it before is ignored. -/
theorem epoll_registration_read :
    let run := run (U := Bool) (T := ℤ) true false true fun _ => .served
    let l := run [.ioSet (.user true) 3 evRead, .ioStart (.user true)]
    let m := Loop.epollModify 3 0 readBit (reifying l [] 3)
    let l' := run [.ioSet (.user true) 3 evRead, .ioStart (.user true), .fdReify]
    (m.kernel.set 3 = some ⟨kernelMask readBit, 3, m.tag 3⟩ ∨ (m.fds.anfds 3).emask = evEmaskEperm) ∧
    m.kernel.set 3 = some ⟨kernelMask readBit, 3, 1⟩ ∧ l'.kernel.set 3 = some ⟨kernelMask readBit, 3, 1⟩ ∧
    (1 = l'.tag 3 ∧ ((l'.fds.anfds 3).emask = 0 ∨ kernelMask readBit = kernelMask (l'.fds.anfds 3).emask)) ∧
    (l'.epollPoll [⟨epollin, 3, 0⟩]).settled = (l'.epollPoll []).settled := by
  intro run l m l'
  have hreg : l'.kernel.set 3 = some ⟨kernelMask readBit, 3, 1⟩ := by decide +kernel
  obtain ⟨hcall, -, -⟩ := epoll_registration (U := Bool) (T := ℤ) true false true (fun _ => .served)
    [.ioSet (.user true) 3 evRead, .ioStart (.user true)]
  obtain ⟨-, hset, hstale⟩ := epoll_registration (U := Bool) (T := ℤ) true false true (fun _ => .served)
    [.ioSet (.user true) 3 evRead, .ioStart (.user true), .fdReify]
  refine ⟨?_, by decide +kernel, hreg, (hset 3 _ hreg).2, hstale [⟨epollin, 3, 0⟩]⟩
  exact hcall [] 3 [] (by decide +kernel) 0 readBit (by decide) (fun h => absurd h.2 (by decide +kernel)) m rfl

end Epoll

end Qev
