/-
# The sockets that are watched

After `fd_reify` the backend watches the sockets that have active watchers, each with the
union of their masks, and no others (`Sockets.Told`).

What carries it: an index that has watchers, or a recorded mask, stands for one socket, and
two of them for two (`Inv.apart`). With wepoll an index without watchers has no recorded
mask, for `ev_io_stop` has deleted its registration. With `select` the sets still have the
socket, and `select_modify` finds it by the handle: so an index whose mask is still recorded
must not go to another socket before `fd_reify`, nor the socket to another index
(`Sockets.Settled`).
-/
import Qev.Backend.Placement
import Qev.Backend.Registration
import Qev.Win32.Sockets

namespace Qev

open Lib

namespace Fds

variable {W : Type} [DecidableEq W] {s : Fds W} {w : W} {fd n : ℕ} {queue rest : List ℕ}

/-- The index of an inactive watcher does not matter. -/
theorem Tracked.setWatcher (h : s.Tracked queue) (hw : s.active w = 0) (fd : ℕ) :
    ({ s with fd := Function.update s.fd w fd } : Fds W).Tracked queue := by
  refine h.inactive hw ⟨fun fd' v => ?_, h.linked.nodup⟩ rfl rfl rfl fun _ _ => rfl
  refine (h.linked.mem fd' v).trans (and_congr_right fun hv => ?_)
  have hne : v ≠ w := fun he => hv (he ▸ hw)
  simp [hne]

section

omit [DecidableEq W]

theorem Tracked.congr_queue (h : s.Tracked queue) (fdchanges : List ℕ) :
    ({ s with fdchanges := fdchanges } : Fds W).Tracked queue :=
  ⟨h.linked.congr (fun _ => rfl) rfl rfl, h.bound, h.mask, h.queued, h.clean⟩

end

/-- As `Tracked.stop`, in the middle of `fd_reify`. -/
theorem Tracked.stopQueued (h : s.Tracked (rest ++ s.fdchanges.drop n)) (hn : n ≤ s.fdchanges.length) (w : W) :
    (s.stop w).Tracked (rest ++ (s.stop w).fdchanges.drop n) ∧ n ≤ (s.stop w).fdchanges.length ∧
      ∀ fd ∈ (s.stop w).fdchanges.drop n, fd ∈ s.fdchanges.drop n ∨ fd = s.fd w := by
  have h' := (h.congr_queue (rest ++ s.fdchanges.drop n)).stop w
  have hch : (s.stop w).fdchanges =
      if ((s.wlistDel w).anfds (s.fd w)).reify = 0 then s.fdchanges ++ [s.fd w] else s.fdchanges := rfl
  have hch' : (({ s with fdchanges := rest ++ s.fdchanges.drop n } : Fds W).stop w).fdchanges =
      if ((s.wlistDel w).anfds (s.fd w)).reify = 0 then rest ++ s.fdchanges.drop n ++ [s.fd w]
      else rest ++ s.fdchanges.drop n := rfl
  have hq : (({ s with fdchanges := rest ++ s.fdchanges.drop n } : Fds W).stop w).fdchanges =
      rest ++ (s.stop w).fdchanges.drop n := by
    rw [hch', hch]
    split
    · rw [List.drop_append_of_le_length hn, List.append_assoc]
    · rfl
  rw [hq] at h'
  refine ⟨⟨h'.linked.congr (fun _ => rfl) rfl rfl, h'.bound, h'.mask, h'.queued, h'.clean⟩, ?_, ?_⟩
  · rw [hch]
    split
    · rw [List.length_append]
      omega
    · exact hn
  · intro fd hfd
    rw [hch] at hfd
    split at hfd
    · rw [List.drop_append_of_le_length hn] at hfd
      simpa using hfd
    · exact .inl hfd

section

omit [DecidableEq W]

/-- An fd without watchers has its masks forgotten. -/
theorem Tracked.forgotten (h : s.Tracked queue) (hh : (s.anfds fd).head = []) :
    (s.setFd fd { s.anfds fd with events := 0, emask := 0 }).Tracked queue := by
  have hhead : ∀ fd', ((s.setFd fd { s.anfds fd with events := 0, emask := 0 }).anfds fd').head = (s.anfds fd').head := by
    intro fd'
    by_cases he : fd' = fd
    · simp [setFd, he]
    · simp [setFd, he]
  refine ⟨h.linked.congr hhead rfl rfl, fun fd' hm => ?_, h.mask, fun fd' hr => h.queued fd' ?_, fun fd' hn => ?_⟩
  · rw [hhead]
    refine ⟨(h.bound fd' hm).1, ?_⟩
    by_cases he : fd' = fd
    · simp [setFd, he]
    · simpa [setFd, he] using (h.bound fd' hm).2
  · by_cases he : fd' = fd
    · simpa [setFd, he] using hr
    · simpa [setFd, he] using hr
  · rw [wanted_congr (hhead fd') fun _ _ => rfl]
    by_cases he : fd' = fd
    · rw [he, wanted_nil hh]
      simp [setFd]
    · simpa [setFd, he] using h.clean fd' hn

end

end Fds

namespace Epoll

/-! ### wepoll's registrations -/

/-- wepoll has no sockets it leaves to the loop. -/
def Kernel.Serves (k : Kernel) : Prop := ∀ n present, k.answers n present ≠ .eperm

theorem Kernel.Serves.accepts {k : Kernel} (hk : k.Serves) : k.Accepts := fun n => hk n true

theorem set_del {k : Kernel} (hk : k.Serves) (fd : ℕ) (ev : EpollEvent) :
    (epollCtl .del fd ev k).1.set = Function.update k.set fd none := by
  have hset := Loop.epollCtl_set .del fd ev hk.accepts
  cases he : (epollCtl .del fd ev k).2 with
  | none =>
    rw [he] at hset
    exact hset
  | some e =>
    rw [he] at hset
    obtain ⟨hsame, hnone⟩ : (epollCtl .del fd ev k).1.set = k.set ∧ k.set fd = none := by cases e <;> exact hset
    rw [hsame, ← hnone]
    exact (Function.update_eq_self ..).symm

theorem epollCtl_served {k : Kernel} (hk : k.Serves) (op : CtlOp) (fd : ℕ) (ev : EpollEvent) :
    (epollCtl op fd ev k).2 ≠ some .eperm := by
  unfold epollCtl
  dsimp only
  rw [if_neg (hk _ _)]
  cases op with
  | add => cases k.set fd with
    | some r => exact nofun
    | none =>
      dsimp only
      split
      · exact nofun
      · exact nofun
  | mod => cases k.set fd <;> exact nofun
  | del => cases k.set fd <;> exact nofun

theorem register_served {k : Kernel} (hk : k.Serves) (fd : ℕ) (oev nev oldmask : BitVec 8) (ev : EpollEvent) :
    (register fd oev nev oldmask ev k).2 ≠ .eperm := by
  have hctl : (epollCtl (if oev ≠ 0 ∧ oldmask ≠ nev then .mod else .add) fd ev k).2 ≠ some .eperm :=
    epollCtl_served hk _ fd ev
  unfold register
  generalize epollCtl (if oev ≠ 0 ∧ oldmask ≠ nev then .mod else .add) fd ev k = q at hctl ⊢
  obtain ⟨k₁, r⟩ := q
  cases r with
  | none => exact nofun
  | some errno =>
    cases errno with
    | enoent =>
      dsimp only
      generalize epollCtl .add fd ev k₁ = q₂
      obtain ⟨k₂, r₂⟩ := q₂
      cases r₂ <;> exact nofun
    | eexist =>
      dsimp only
      split
      · exact nofun
      · generalize epollCtl .mod fd ev k₁ = q₂
        obtain ⟨k₂, r₂⟩ := q₂
        cases r₂ <;> exact nofun
    | eperm => exact absurd rfl hctl
    | resource => exact nofun

end Epoll

namespace Win32
namespace Sockets

open Epoll

variable {W : Type} [DecidableEq W] {s : Sockets W} {w : W} {fd n : ℕ} {rest : List ℕ} {out : Option ℕ}

/-! ### The invariant -/

/-- The index stands for a socket: it has watchers, or a recorded mask. -/
def Claimed (s : Sockets W) (fd : ℕ) : Prop := (s.fds.anfds fd).events ≠ 0 ∨ (s.fds.anfds fd).head ≠ []

/-- wepoll has the sockets with active watchers, with the mask it was last told, but for the index `out`. -/
structure Kept (out : Option ℕ) (s : Sockets W) : Prop where
  gone : ∀ fd, (s.fds.anfds fd).head = [] → (s.fds.anfds fd).events = 0 ∧ (s.fds.anfds fd).emask = 0
  emask : ∀ fd, (s.fds.anfds fd).events ≠ 0 → (s.fds.anfds fd).emask = (s.fds.anfds fd).events
  serves : s.kernel.Serves
  held : ∀ fd, (s.fds.anfds fd).head ≠ [] → out ≠ some fd →
    (s.kernel.set (s.handle fd).toNat).map EpollEvent.events =
      if (s.fds.anfds fd).emask = 0 then none else some (kernelMask (s.fds.anfds fd).emask)
  free : ∀ sock, (∀ fd, (s.fds.anfds fd).head ≠ [] → (s.handle fd).toNat ≠ sock) → s.kernel.set sock = none

/-- The set has the sockets whose recorded mask has the bit. -/
structure SetOk (s : Sockets W) (i : ℕ) (set : List Handle) : Prop where
  nodup : set.Nodup
  mem : ∀ sock, sock ∈ set ↔ ∃ fd, (s.fds.anfds fd).events.getLsbD i = true ∧ s.handle fd = sock

structure InSets (s : Sockets W) : Prop where
  small : ∀ fd, (s.fds.anfds fd).events ≠ 0 → fd < s.setsize
  ri : s.SetOk 0 s.ri
  wi : s.SetOk 1 s.wi

/-- `rest` is what `fd_reify` has still to look at, and what was queued first since it began stands behind
place `n` of the queue. -/
structure Inv (out : Option ℕ) (rest : List ℕ) (n : ℕ) (s : Sockets W) : Prop where
  tracked : s.fds.Tracked (rest ++ s.fds.fdchanges.drop n)
  long : n ≤ s.fds.fdchanges.length
  named : ∀ w, s.fds.active w ≠ 0 → s.handle (s.fds.fd w) = s.wHandle w ∧ s.wHandle w ≠ 0
  apart : ∀ fd fd', s.Claimed fd → s.Claimed fd' → s.handle fd = s.handle fd' → fd = fd'
  epoll : s.backend = .epoll → s.Kept out
  select : s.backend ≠ .epoll → s.InSets

section

omit [DecidableEq W]

theorem inv_init (backend : Backend) (setsize : ℕ) (accepts : ℕ → Bool) :
    (init (W := W) backend setsize accepts).Inv none [] 0 := by
  have hno : ∀ fd, ¬ (init (W := W) backend setsize accepts).Claimed fd := fun fd hc =>
    hc.elim (fun h => h rfl) (fun h => h rfl)
  refine ⟨Fds.tracked_fresh (fun _ => rfl) (fun _ => rfl) _, le_refl _, fun w hw => absurd rfl hw,
    fun fd _ hc => absurd hc (hno fd), fun _ => ?_, fun _ => ?_⟩
  · refine ⟨fun _ _ => ⟨rfl, rfl⟩, fun fd he => absurd rfl he, fun n _ => ?_, fun fd hh => absurd rfl hh, fun _ _ => rfl⟩
    show (if accepts n then Answer.served else Answer.resource) ≠ .eperm
    split
    · exact nofun
    · exact nofun
  · refine ⟨fun fd he => absurd rfl he, ⟨.nil, fun sock => ?_⟩, ⟨.nil, fun sock => ?_⟩⟩
    all_goals
      refine iff_of_false List.not_mem_nil ?_
      rintro ⟨fd, hb, -⟩
      revert hb
      show ¬ (0 : BitVec 8).getLsbD _ = true
      decide

theorem Inv.mem_head (h : s.Inv out rest n) {fd : ℕ} (hh : (s.fds.anfds fd).head ≠ []) :
    ∃ w, s.fds.active w ≠ 0 ∧ s.fds.fd w = fd ∧ s.handle fd = s.wHandle w ∧ s.handle fd ≠ 0 := by
  obtain ⟨w, hw⟩ := List.exists_mem_of_ne_nil _ hh
  obtain ⟨hact, hfd⟩ := (h.tracked.linked.mem fd w).mp hw
  obtain ⟨h₁, h₂⟩ := h.named w hact
  rw [hfd] at h₁
  exact ⟨w, hact, hfd, h₁, by rw [h₁]; exact h₂⟩

/-- Other indices with watchers have other sockets. -/
theorem Inv.key_ne (h : s.Inv out rest n) {fd fd' : ℕ} (hc : s.Claimed fd) (hc' : s.Claimed fd') (hne : fd' ≠ fd) :
    (s.handle fd').toNat ≠ (s.handle fd).toNat := fun he =>
  hne (h.apart fd' fd hc' hc (BitVec.eq_of_toNat_eq he))

end

/-! ### Stopping -/

/-- From `s` to `t` an index has lost watchers, and nothing else has changed. -/
structure Fewer (fd₀ : ℕ) (s t : Sockets W) : Prop where
  head : ∀ fd, fd ≠ fd₀ → (t.fds.anfds fd).head = (s.fds.anfds fd).head
  sub : ∀ fd, (t.fds.anfds fd).head ≠ [] → (s.fds.anfds fd).head ≠ []
  events : ∀ fd, (t.fds.anfds fd).events = (s.fds.anfds fd).events
  emask : ∀ fd, (t.fds.anfds fd).emask = (s.fds.anfds fd).emask
  active : ∀ v, t.fds.active v ≠ 0 → s.fds.active v ≠ 0
  fd : t.fds.fd = s.fds.fd
  handle : t.handle = s.handle
  wHandle : t.wHandle = s.wHandle
  backend : t.backend = s.backend
  kernel : t.kernel = s.kernel
  sets : t.ri = s.ri ∧ t.wi = s.wi ∧ t.setsize = s.setsize

variable {t : Sockets W} {fd₀ : ℕ}

theorem fewer_stop (s : Sockets W) (w : W) : Fewer (s.fds.fd w) s { s with fds := s.fds.stop w } := by
  have hstill := Fds.still_stop s.fds w
  refine ⟨fun fd hne => ?_, fun fd hne h0 => ?_, hstill.events, hstill.emask, fun v hv => ?_, rfl, rfl, rfl, rfl, rfl,
    rfl, rfl, rfl⟩
  · exact (Fds.head_stop ..).trans (if_neg hne)
  · refine hne ((Fds.head_stop ..).trans ?_)
    rw [h0]
    simp
  · replace hv : (s.fds.stop w).active v ≠ 0 := hv
    rw [Fds.active_stop] at hv
    split at hv
    · exact absurd rfl hv
    · exact hv

section

omit [DecidableEq W]

theorem Fewer.claimed (hf : Fewer fd₀ s t) {fd : ℕ} (hc : t.Claimed fd) : s.Claimed fd :=
  hc.imp (fun he => by rwa [hf.events] at he) (hf.sub fd)

theorem Fewer.inSets (hf : Fewer fd₀ s t) (h : s.InSets) : t.InSets := by
  obtain ⟨hri, hwi, hsz⟩ := hf.sets
  refine ⟨fun fd hne => ?_, ⟨by rw [hri]; exact h.ri.nodup, fun sock => ?_⟩,
    ⟨by rw [hwi]; exact h.wi.nodup, fun sock => ?_⟩⟩
  · rw [hf.events] at hne
    rw [hsz]
    exact h.small fd hne
  · simp only [hri, hf.events, hf.handle]
    exact h.ri.mem sock
  · simp only [hwi, hf.events, hf.handle]
    exact h.wi.mem sock

/-- The index still has watchers. -/
theorem Fewer.kept (hf : Fewer fd₀ s t) (h : s.Kept out) (hne : (t.fds.anfds fd₀).head ≠ []) : t.Kept out := by
  refine ⟨fun fd h0 => ?_, fun fd he => ?_, by rw [hf.kernel]; exact h.serves, fun fd hne' ho => ?_,
    fun sock hno => ?_⟩
  · have hfd : fd ≠ fd₀ := fun he => hne (he ▸ h0)
    rw [hf.head fd hfd] at h0
    rw [hf.events, hf.emask]
    exact h.gone fd h0
  · rw [hf.events] at he
    rw [hf.events, hf.emask]
    exact h.emask fd he
  · rw [hf.kernel, hf.handle, hf.emask]
    exact h.held fd (hf.sub fd hne') ho
  · rw [hf.kernel]
    refine h.free sock fun fd hfd => ?_
    have hno' := hno fd
    rw [hf.handle] at hno'
    by_cases he : fd = fd₀
    · rw [he] at hno' ⊢
      exact hno' hne
    · exact hno' (by rw [hf.head fd he]; exact hfd)

theorem anfds_eagerDel (s : Sockets W) (fd : ℕ) : (s.eagerDel fd₀).fds.anfds fd =
    if fd = fd₀ then { s.fds.anfds fd₀ with events := 0, emask := 0 } else s.fds.anfds fd :=
  Function.update_apply ..

theorem head_eagerDel (s : Sockets W) (fd : ℕ) :
    ((s.eagerDel fd₀).fds.anfds fd).head = (s.fds.anfds fd).head := by
  rw [anfds_eagerDel]
  split
  · rename_i he
    rw [he]
  · rfl

theorem claimed_eagerDel {fd : ℕ} (h0 : (t.fds.anfds fd₀).head = []) (hc : (t.eagerDel fd₀).Claimed fd) :
    fd ≠ fd₀ ∧ t.Claimed fd := by
  have hne : fd ≠ fd₀ := by
    rintro rfl
    rcases hc with hc | hc
    · rw [anfds_eagerDel, if_pos rfl] at hc
      exact hc rfl
    · rw [head_eagerDel] at hc
      exact hc h0
  unfold Claimed at hc
  rw [anfds_eagerDel, if_neg hne] at hc
  exact ⟨hne, hc⟩

/-- The index has lost its last watcher, and its registration. -/
theorem Fewer.deleted (hf : Fewer fd₀ s t) (h : s.Kept out) (h0 : (t.fds.anfds fd₀).head = [])
    (hkey : ∀ fd, s.Claimed fd → fd ≠ fd₀ → (s.handle fd).toNat ≠ (s.handle fd₀).toNat) :
    (t.eagerDel fd₀).Kept out := by
  have hserves : t.kernel.Serves := by
    rw [hf.kernel]
    exact h.serves
  have hset := set_del hserves (t.handle fd₀).toNat ⟨0, 0, 0⟩
  obtain ⟨hans, -⟩ := Loop.epollCtl_frame .del (t.handle fd₀).toNat ⟨0, 0, 0⟩ t.kernel
  have hset' : (t.eagerDel fd₀).kernel.set = Function.update s.kernel.set (s.handle fd₀).toNat none := by
    rw [← hf.kernel, ← hf.handle]
    exact hset
  refine ⟨fun fd hnil => ?_, fun fd he => ?_, fun n present => ?_, fun fd hne ho => ?_, fun sock hno => ?_⟩
  · rw [head_eagerDel] at hnil
    rw [anfds_eagerDel]
    split
    · exact ⟨rfl, rfl⟩
    · rename_i hfd
      rw [hf.head fd hfd] at hnil
      rw [hf.events, hf.emask]
      exact h.gone fd hnil
  · rw [anfds_eagerDel] at he ⊢
    split at he
    · exact absurd rfl he
    · rename_i hfd
      rw [hf.events] at he
      rw [if_neg hfd, hf.events, hf.emask]
      exact h.emask fd he
  · show (epollCtl .del (t.handle fd₀).toNat ⟨0, 0, 0⟩ t.kernel).1.answers n present ≠ .eperm
    rw [hans]
    exact hserves n present
  · obtain ⟨hfd, hc⟩ := claimed_eagerDel h0 (.inr hne)
    rw [head_eagerDel] at hne
    rw [hset', anfds_eagerDel, if_neg hfd, hf.emask]
    show (Function.update s.kernel.set _ none (t.handle fd).toNat).map _ = _
    rw [hf.handle, Function.update_of_ne (hkey fd (hf.claimed hc) hfd)]
    exact h.held fd (hf.sub fd hne) ho
  · rw [hset']
    by_cases he : sock = (s.handle fd₀).toNat
    · rw [he, Function.update_self]
    · rw [Function.update_of_ne he]
      refine h.free sock fun fd hne => ?_
      by_cases hfd : fd = fd₀
      · rw [hfd]
        exact fun h' => he h'.symm
      · have hno' : (t.handle fd).toNat ≠ sock := hno fd (by rw [head_eagerDel, hf.head fd hfd]; exact hne)
        rwa [hf.handle] at hno'

end

theorem Inv.stop (h : s.Inv out rest n) (w : W) : (s.evIoStop w).Inv out rest n := by
  by_cases ha : s.fds.active w = 0
  · rw [show s.evIoStop w = s from if_pos ha]
    exact h
  · obtain ⟨htr, hlong, -⟩ := h.tracked.stopQueued h.long w
    have hf := fewer_stop s w
    have heq : s.evIoStop w = if s.backend = .epoll ∧ ((s.fds.stop w).anfds (s.fds.fd w)).head = [] then
        ({ s with fds := s.fds.stop w } : Sockets W).eagerDel (s.fds.fd w) else { s with fds := s.fds.stop w } :=
      if_neg ha
    have hnamed : ∀ v, (s.fds.stop w).active v ≠ 0 → s.handle (s.fds.fd v) = s.wHandle v ∧ s.wHandle v ≠ 0 :=
      fun v hv => h.named v (hf.active v hv)
    rw [heq]
    by_cases hdel : s.backend = .epoll ∧ ((s.fds.stop w).anfds (s.fds.fd w)).head = []
    · rw [if_pos hdel]
      have hwc : s.Claimed (s.fds.fd w) := .inr (List.ne_nil_of_mem ((h.tracked.linked.mem _ w).mpr ⟨ha, rfl⟩))
      refine ⟨htr.forgotten hdel.2, hlong, hnamed, fun fd fd' hc hc' => ?_, fun _ => ?_,
        fun hne => absurd hdel.1 hne⟩
      · exact h.apart fd fd' (hf.claimed (claimed_eagerDel hdel.2 hc).2) (hf.claimed (claimed_eagerDel hdel.2 hc').2)
      · exact hf.deleted (h.epoll hdel.1) hdel.2 fun fd hc hne => h.key_ne hwc hc hne
    · rw [if_neg hdel]
      exact ⟨htr, hlong, hnamed, fun fd fd' hc hc' => h.apart fd fd' (hf.claimed hc) (hf.claimed hc'),
        fun he => hf.kept (h.epoll he) fun h0 => hdel ⟨he, h0⟩, fun he => hf.inSets (h.select he)⟩

/-! ### Starting and modifying -/

section

omit [DecidableEq W]

theorem Inv.queued (h : s.Inv out [] 0) : s.fds.Tracked s.fds.fdchanges := by
  simpa using h.tracked

/-- Nothing changes but the masks of watchers and what has to be looked at. -/
structure Alike (s t : Sockets W) : Prop where
  head : ∀ fd, (t.fds.anfds fd).head = (s.fds.anfds fd).head
  events : ∀ fd, (t.fds.anfds fd).events = (s.fds.anfds fd).events
  emask : ∀ fd, (t.fds.anfds fd).emask = (s.fds.anfds fd).emask
  active : t.fds.active = s.fds.active
  fd : t.fds.fd = s.fds.fd
  handle : t.handle = s.handle
  wHandle : ∀ v, s.fds.active v ≠ 0 → t.wHandle v = s.wHandle v
  backend : t.backend = s.backend
  kernel : t.kernel = s.kernel
  sets : t.ri = s.ri ∧ t.wi = s.wi ∧ t.setsize = s.setsize

theorem Alike.claimed (ha : Alike s t) {fd : ℕ} : t.Claimed fd ↔ s.Claimed fd := by
  unfold Claimed
  rw [ha.events, ha.head]

theorem Alike.inv {rest' : List ℕ} {n' : ℕ} (ha : Alike s t) (h : s.Inv out rest' n')
    (htr : t.fds.Tracked (rest ++ t.fds.fdchanges.drop n)) (hlong : n ≤ t.fds.fdchanges.length) :
    t.Inv out rest n := by
  refine ⟨htr, hlong, fun v hv => ?_, fun fd fd' hc hc' => ?_, fun hb => ?_, fun hb => ?_⟩
  · rw [ha.active] at hv
    rw [ha.handle, ha.fd, ha.wHandle v hv]
    exact h.named v hv
  · rw [ha.handle]
    exact h.apart fd fd' (ha.claimed.mp hc) (ha.claimed.mp hc')
  · obtain ⟨h₁, h₂, h₃, h₄, h₅⟩ := h.epoll (ha.backend ▸ hb)
    refine ⟨?_, ?_, ?_, ?_, ?_⟩
    · simpa only [ha.head, ha.events, ha.emask] using h₁
    · simpa only [ha.events, ha.emask] using h₂
    · simpa only [ha.kernel] using h₃
    · simpa only [ha.head, ha.emask, ha.kernel, ha.handle] using h₄
    · simpa only [ha.head, ha.kernel, ha.handle] using h₅
  · obtain ⟨h₁, ⟨h₂, h₃⟩, h₄, h₅⟩ := h.select (ha.backend ▸ hb)
    obtain ⟨hri, hwi, hsz⟩ := ha.sets
    refine ⟨?_, ⟨?_, ?_⟩, ?_, ?_⟩
    · simpa only [ha.events, hsz] using h₁
    · simpa only [hri] using h₂
    · simpa only [hri, ha.events, ha.handle] using h₃
    · simpa only [hwi] using h₄
    · simpa only [hwi, ha.events, ha.handle] using h₅

end

theorem Inv.initSock (h : s.Inv none [] 0) (hw : s.fds.active w = 0) (sock : Handle) (events : Events) :
    (s.evIoInitSock w sock events).Inv none [] 0 := by
  have ha : Alike s (s.evIoInitSock w sock events) :=
    ⟨fun _ => rfl, fun _ => rfl, fun _ => rfl, rfl, rfl, rfl,
      fun v hv => Function.update_of_ne (fun he : v = w => hv (he ▸ hw)) .., rfl, rfl, rfl, rfl, rfl⟩
  refine ha.inv h ?_ (Nat.zero_le _)
  rw [List.nil_append, List.drop_zero]
  exact h.queued.inactive hw (h.tracked.linked.congr (fun _ => rfl) rfl rfl) rfl rfl rfl
    fun v hv => Function.update_of_ne hv ..

theorem Inv.modify (h : s.Inv none [] 0) (w : W) (events : Events) : (s.evIoModify w events).Inv none [] 0 := by
  have hstill := Fds.still_modify s.fds w events
  obtain ⟨hact, hfd⟩ := Fds.active_modify s.fds w events
  have ha : Alike s (s.evIoModify w events) :=
    ⟨Fds.head_modify s.fds w events, hstill.events, hstill.emask, hact, hfd, rfl, fun _ _ => rfl, rfl, rfl, rfl, rfl,
      rfl⟩
  refine ha.inv h ?_ (Nat.zero_le _)
  rw [List.nil_append, List.drop_zero]
  exact h.queued.modify w events

/-- The registry's answer fits, and no recorded mask ties the socket or the index to another one. -/
theorem Inv.start (h : s.Inv none [] 0) (hw : s.fds.active w = 0) (hsock : s.wHandle w ≠ 0)
    (hmask : s.fds.events w &&& ~~~(evIofdset ||| evRead ||| evWrite) = 0) (hfits : s.Fits w fd)
    (hfree : s.backend ≠ .epoll → ∀ fd', (s.fds.anfds fd').events ≠ 0 → (s.handle fd' = s.wHandle w ↔ fd' = fd)) :
    (s.evIoStart w fd).Inv none [] 0 := by
  obtain ⟨t, ht⟩ : ∃ t : Fds W, t = { s.fds with fd := Function.update s.fds.fd w fd } := ⟨_, rfl⟩
  have hfds : (s.evIoStart w fd).fds = t.start w := by rw [ht]; rfl
  have htw : t.fd w = fd := by rw [ht]; exact Function.update_self ..
  have htr : (t.start w).Tracked (t.start w).fdchanges := by
    have h₁ : t.Tracked t.fdchanges := by
      rw [ht]
      exact h.queued.setWatcher hw fd
    exact h₁.start (by rw [ht]; exact hw) (by rw [ht]; exact hmask)
  have hstill := Fds.still_start t w
  have hhead : ∀ fd', ((t.start w).anfds fd').head =
      if fd' = fd then w :: (s.fds.anfds fd').head else (s.fds.anfds fd').head := fun fd' => by
    rw [Fds.head_start, htw, ht]
  have hevents : ∀ fd', ((t.start w).anfds fd').events = (s.fds.anfds fd').events := fun fd' =>
    (hstill.events fd').trans (by rw [ht])
  have hemask : ∀ fd', ((t.start w).anfds fd').emask = (s.fds.anfds fd').emask := fun fd' =>
    (hstill.emask fd').trans (by rw [ht])
  have hhandle : ∀ fd', (s.evIoStart w fd).handle fd' = if fd' = fd then s.wHandle w else s.handle fd' :=
    fun fd' => Function.update_apply ..
  -- an index that stands for a socket stands for this one exactly when it is `fd`
  have hone : ∀ fd', s.Claimed fd' → (s.handle fd' = s.wHandle w ↔ fd' = fd) := by
    intro fd' hc
    have hheaded : (s.fds.anfds fd').head ≠ [] → (s.handle fd' = s.wHandle w ↔ fd' = fd) := by
      intro hne
      obtain ⟨v, hv, hfd, hh, -⟩ := h.mem_head hne
      rw [hh, ← hfd]
      exact (hfits v hv).symm
    rcases hc with he | hne
    · by_cases hb : s.backend = .epoll
      · refine hheaded fun h0 => he ((h.epoll hb).gone fd' h0).1
      · exact hfree hb fd' he
    · exact hheaded hne
  have hkeep : ∀ fd', s.Claimed fd' → (s.evIoStart w fd).handle fd' = s.handle fd' := by
    intro fd' hc
    rw [hhandle]
    split
    · rename_i he
      exact ((hone fd' hc).mpr he).symm
    · rfl
  have hclaimed : ∀ fd', (s.evIoStart w fd).Claimed fd' → fd' = fd ∨ s.Claimed fd' := by
    intro fd' hc
    by_cases he : fd' = fd
    · exact .inl he
    · refine .inr ?_
      unfold Claimed at hc
      rw [hfds, hevents, hhead, if_neg he] at hc
      exact hc
  refine ⟨by rw [hfds]; simpa using htr, Nat.zero_le _, fun v hv => ?_, fun fd' fd'' hc hc' he => ?_, fun hb => ?_,
    fun hb => ?_⟩
  · rw [hfds] at hv ⊢
    show (s.evIoStart w fd).handle ((t.start w).fd v) = s.wHandle v ∧ _
    rw [Fds.active_start] at hv
    have hfdv : (t.start w).fd v = if v = w then fd else s.fds.fd v := by
      rw [show (t.start w).fd = t.fd from rfl, ht]
      exact Function.update_apply ..
    rw [hfdv]
    by_cases hvw : v = w
    · rw [if_pos hvw, hhandle, if_pos rfl, hvw]
      exact ⟨rfl, hsock⟩
    · rw [if_neg hvw] at hv ⊢
      rw [ht] at hv
      obtain ⟨h₁, h₂⟩ := h.named v hv
      rw [hkeep _ (.inr (List.ne_nil_of_mem ((h.tracked.linked.mem _ v).mpr ⟨hv, rfl⟩)))]
      exact ⟨h₁, h₂⟩
  · rcases hclaimed fd' hc with rfl | hs
    · rcases hclaimed fd'' hc' with rfl | hs'
      · rfl
      · rw [hkeep fd'' hs', hhandle, if_pos rfl] at he
        exact ((hone fd'' hs').mp he.symm).symm
    · rcases hclaimed fd'' hc' with rfl | hs'
      · rw [hkeep fd' hs, hhandle, if_pos rfl] at he
        exact (hone fd' hs).mp he
      · rw [hkeep fd' hs, hkeep fd'' hs'] at he
        exact h.apart fd' fd'' hs hs' he
  · have hk := h.epoll hb
    have hsub : ∀ fd', ((t.start w).anfds fd').head = [] → fd' ≠ fd ∧ (s.fds.anfds fd').head = [] := by
      intro fd' h0
      rw [hhead] at h0
      split at h0
      · exact absurd h0 (List.cons_ne_nil _ _)
      · rename_i hne
        exact ⟨hne, h0⟩
    refine ⟨fun fd' h0 => ?_, fun fd' he => ?_, hk.serves, fun fd' hne _ => ?_, fun sock hno => ?_⟩
    · rw [hfds] at h0 ⊢
      rw [hevents, hemask]
      exact hk.gone fd' (hsub fd' h0).2
    · rw [hfds, hevents] at he
      rw [hfds, hevents, hemask]
      exact hk.emask fd' he
    · rw [hfds, hhead] at hne
      rw [hfds, hemask]
      by_cases hold : (s.fds.anfds fd').head = []
      · -- the first watcher on the socket: wepoll does not know it
        have hfd : fd' = fd := by
          by_contra hfd
          rw [if_neg hfd] at hne
          exact hne hold
        rw [(hk.gone fd' hold).2, if_pos rfl, hhandle, if_pos hfd]
        show (s.kernel.set _).map _ = _
        rw [hk.free _ fun fd'' hne'' he => ?_]
        · rfl
        · have hfd'' := (hone fd'' (.inr hne'')).mp (BitVec.eq_of_toNat_eq he)
          rw [hfd'', ← hfd] at hne''
          exact hne'' hold
      · rw [hkeep fd' (.inr hold)]
        exact hk.held fd' hold nofun
    · refine hk.free sock fun fd' hne he => hno fd' ?_ ?_
      · rw [hfds, hhead]
        split
        · exact List.cons_ne_nil _ _
        · exact hne
      · rw [hkeep fd' (.inr hne)]
        exact he
  · have hin := h.select hb
    have hmem : ∀ i sock, (∃ fd', (s.fds.anfds fd').events.getLsbD i = true ∧ s.handle fd' = sock) ↔
        ∃ fd', (((s.evIoStart w fd).fds).anfds fd').events.getLsbD i = true ∧ (s.evIoStart w fd).handle fd' = sock := by
      intro i sock
      refine exists_congr fun fd' => ?_
      rw [hfds, hevents]
      refine and_congr_right fun hb' => ?_
      rw [hkeep fd' (.inl fun h0 => ?_)]
      rw [h0] at hb'
      simp at hb'
    refine ⟨fun fd' he => ?_, ⟨hin.ri.nodup, fun sock => ?_⟩, ⟨hin.wi.nodup, fun sock => ?_⟩⟩
    · rw [hfds, hevents] at he
      exact hin.small fd' he
    · exact (hin.ri.mem sock).trans (hmem 0 sock)
    · exact (hin.wi.mem sock).trans (hmem 1 sock)

/-! ### fd_reify -/

/-- `fd_kill` leaves the index without watchers, and queues no other. -/
theorem Inv.killLoop (fd k : ℕ) (h : s.Inv out rest n) (hk : (s.fds.anfds fd).head.length ≤ k) :
    (fdKillLoop fd k s).Inv out rest n ∧ ((fdKillLoop fd k s).fds.anfds fd).head = [] ∧
      (∀ fd', fd' ≠ fd → ((fdKillLoop fd k s).fds.anfds fd').head = (s.fds.anfds fd').head) ∧
      (∀ fd' ∈ (fdKillLoop fd k s).fds.fdchanges.drop n, fd' ∈ s.fds.fdchanges.drop n ∨ fd' = fd) ∧
      (fdKillLoop fd k s).backend = s.backend := by
  induction k generalizing s with
  | zero =>
    exact ⟨h, List.eq_nil_of_length_eq_zero (Nat.le_zero.mp hk), fun _ _ => rfl, fun _ hm => .inl hm, rfl⟩
  | succ k ih =>
    unfold fdKillLoop
    cases hh : (s.fds.anfds fd).head with
    | nil => exact ⟨h, hh, fun _ _ => rfl, fun _ hm => .inl hm, rfl⟩
    | cons w ws =>
      obtain ⟨hact, hfd⟩ := (h.tracked.linked.mem fd w).mp (hh ▸ List.mem_cons_self)
      have heq : s.evIoStop w = if s.backend = .epoll ∧ ((s.fds.stop w).anfds (s.fds.fd w)).head = [] then
          ({ s with fds := s.fds.stop w } : Sockets W).eagerDel (s.fds.fd w) else { s with fds := s.fds.stop w } :=
        if_neg hact
      have hhead : ∀ fd', ((s.evIoStop w).fds.anfds fd').head = ((s.fds.stop w).anfds fd').head := by
        intro fd'
        rw [heq]
        split
        · exact head_eagerDel ..
        · rfl
      have hch : (s.evIoStop w).fds.fdchanges = (s.fds.stop w).fdchanges ∧ (s.evIoStop w).backend = s.backend := by
        rw [heq]
        split
        · exact ⟨rfl, rfl⟩
        · exact ⟨rfl, rfl⟩
      have hnew := (h.tracked.stopQueued h.long w).2.2
      obtain ⟨h₁, h₂, h₃, h₄, h₅⟩ := ih (h.stop w) (by
        rw [hhead, Fds.head_stop, if_pos hfd.symm, hh, List.erase_cons_head]
        rw [hh, List.length_cons] at hk
        omega)
      refine ⟨h₁, h₂, fun fd' hne => ?_, fun fd' hm => ?_, h₅.trans hch.2⟩
      · rw [h₃ fd' hne, hhead, Fds.head_stop, if_neg (by rw [hfd]; exact hne)]
      · rcases h₄ fd' hm with hm | hm
        · rw [hch.1] at hm
          rw [← hfd]
          exact hnew fd' hm
        · exact .inr hm

section

omit [DecidableEq W]

/-- The set of one kind of event follows the mask of an index. -/
theorem selectSet_ok {bit : BitVec 8} {i : ℕ} (hbit : ∀ x : BitVec 8, x &&& bit ≠ 0 ↔ x.getLsbD i = true)
    {set : List Handle} (nev : BitVec 8) (h : s.SetOk i set)
    (hsmall : ∀ fd', (s.fds.anfds fd').events ≠ 0 → fd' < s.setsize) (hfd : fd < s.setsize)
    (hapart : ∀ fd', (s.fds.anfds fd').events.getLsbD i = true → s.handle fd' = s.handle fd → fd' = fd) :
    (s.selectSet bit (s.handle fd) (s.fds.anfds fd).events nev set).Nodup ∧
      ∀ sock, sock ∈ s.selectSet bit (s.handle fd) (s.fds.anfds fd).events nev set ↔
        ∃ fd', (if fd' = fd then nev else (s.fds.anfds fd').events).getLsbD i = true ∧ s.handle fd' = sock := by
  have hother : ∀ sock, sock ≠ s.handle fd → (sock ∈ set ↔
      ∃ fd', (if fd' = fd then nev else (s.fds.anfds fd').events).getLsbD i = true ∧ s.handle fd' = sock) := by
    intro sock hne
    rw [h.mem]
    refine exists_congr fun fd' => ?_
    by_cases he : fd' = fd
    · rw [he]
      exact iff_of_false (fun hc => hne hc.2.symm) fun hc => hne hc.2.symm
    · rw [if_neg he]
  have hself : (∃ fd', (if fd' = fd then nev else (s.fds.anfds fd').events).getLsbD i = true ∧
      s.handle fd' = s.handle fd) ↔ nev.getLsbD i = true := by
    constructor
    · rintro ⟨fd', hb, hh⟩
      by_cases he : fd' = fd
      · rwa [if_pos he] at hb
      · rw [if_neg he] at hb
        exact absurd (hapart fd' hb hh) he
    · exact fun hb => ⟨fd, by rw [if_pos rfl]; exact hb, rfl⟩
  have hold : s.handle fd ∈ set ↔ (s.fds.anfds fd).events.getLsbD i = true := by
    rw [h.mem]
    constructor
    · rintro ⟨fd', hb, hh⟩
      rwa [hapart fd' hb hh] at hb
    · exact fun hb => ⟨fd, hb, rfl⟩
  unfold selectSet
  have hx : ((s.fds.anfds fd).events ^^^ nev) &&& bit ≠ 0 ↔
      (s.fds.anfds fd).events.getLsbD i ≠ nev.getLsbD i := by
    rw [hbit, BitVec.getLsbD_xor]
    cases (s.fds.anfds fd).events.getLsbD i <;> cases nev.getLsbD i <;> decide
  by_cases hc : ((s.fds.anfds fd).events ^^^ nev) &&& bit ≠ 0
  · rw [if_pos hc]
    have hdiff := hx.mp hc
    by_cases hn : nev &&& bit ≠ 0
    · rw [if_pos hn]
      have hn' := (hbit nev).mp hn
      have hnot : s.handle fd ∉ set := fun hm => hdiff ((hold.mp hm).trans hn'.symm)
      -- the sockets of the set have other indices, all below `setsize`
      have hroom : set.length < s.setsize := by
        have hsub : set.toFinset ⊆ ((Finset.range s.setsize).erase fd).image s.handle := by
          intro sock hm
          obtain ⟨fd', hb, hh⟩ := (h.mem sock).mp (List.mem_toFinset.mp hm)
          refine Finset.mem_image.mpr ⟨fd', Finset.mem_erase.mpr ⟨fun he => ?_, Finset.mem_range.mpr (hsmall fd' ?_)⟩, hh⟩
          · rw [he] at hb
            exact hnot (hold.mpr hb)
          · intro h0
            rw [h0] at hb
            simp at hb
        have hcard := (Finset.card_le_card hsub).trans Finset.card_image_le
        rw [List.toFinset_card_of_nodup h.nodup, Finset.card_erase_of_mem (Finset.mem_range.mpr hfd),
          Finset.card_range] at hcard
        omega
      unfold fdSet
      rw [if_neg (by rintro (hm | hm); exact hnot hm; omega)]
      refine ⟨List.nodup_append.mpr ⟨h.nodup, List.nodup_singleton _, fun a ha b hb he => ?_⟩, fun sock => ?_⟩
      · rw [List.mem_singleton.mp hb] at he
        exact hnot (he ▸ ha)
      · rw [List.mem_append, List.mem_singleton]
        by_cases he : sock = s.handle fd
        · rw [he, hself]
          exact iff_of_true (.inr rfl) hn'
        · rw [← hother sock he]
          exact or_iff_left he
    · rw [if_neg hn]
      have hn' : ¬ nev.getLsbD i = true := fun hb => hn ((hbit nev).mpr hb)
      refine ⟨h.nodup.erase _, fun sock => ?_⟩
      unfold fdClr
      rw [h.nodup.mem_erase_iff]
      by_cases he : sock = s.handle fd
      · rw [he, hself]
        exact iff_of_false (fun hc => hc.1 rfl) hn'
      · rw [← hother sock he]
        exact and_iff_right he
  · rw [if_neg hc]
    refine ⟨h.nodup, fun sock => ?_⟩
    have hsame := not_not.mp fun hd => hc (hx.mpr hd)
    by_cases he : sock = s.handle fd
    · rw [he, hself, hold, hsame]
    · exact hother sock he

theorem emask_reify (s : Fds W) (fd fd' : ℕ) : ((s.reify fd).anfds fd').emask = (s.anfds fd').emask := by
  by_cases h : fd' = fd
  · simp [Fds.reify, Fds.setFd, h]
  · simp [Fds.reify, Fds.setFd, h]

/-- wepoll was told the mask of an index, and has it, unless the index is `out`. -/
theorem Kept.told (h : s.Kept none) (fd : ℕ) {nev : BitVec 8} (hn : nev ≠ 0)
    (hhead : ∀ fd', (t.fds.anfds fd').head = (s.fds.anfds fd').head) (hne : (s.fds.anfds fd).head ≠ [])
    (hevents : ∀ fd', (t.fds.anfds fd').events = if fd' = fd then nev else (s.fds.anfds fd').events)
    (hemask : ∀ fd', (t.fds.anfds fd').emask = if fd' = fd then nev else (s.fds.anfds fd').emask)
    (hhandle : t.handle = s.handle) (hans : t.kernel.answers = s.kernel.answers)
    (hset : ∀ sock, sock ≠ (s.handle fd).toNat → t.kernel.set sock = s.kernel.set sock)
    (hkey : ∀ fd', (s.fds.anfds fd').head ≠ [] → fd' ≠ fd → (s.handle fd').toNat ≠ (s.handle fd).toNat)
    (hout : out ≠ some fd →
      (t.kernel.set (s.handle fd).toNat).map EpollEvent.events = some (kernelMask nev)) : t.Kept out := by
  refine ⟨fun fd' h0 => ?_, fun fd' he => ?_, fun n present => by rw [hans]; exact h.serves n present, fun fd' hne' ho => ?_,
    fun sock hno => ?_⟩
  · rw [hhead] at h0
    have hfd : fd' ≠ fd := fun he => hne (he ▸ h0)
    rw [hevents, hemask, if_neg hfd, if_neg hfd]
    exact h.gone fd' h0
  · rw [hevents] at he
    rw [hevents, hemask]
    split
    · rfl
    · rename_i hfd
      rw [if_neg hfd] at he
      exact h.emask fd' he
  · rw [hhead] at hne'
    rw [hemask, hhandle]
    by_cases hfd : fd' = fd
    · rw [if_pos hfd, if_neg hn, hfd]
      exact hout (hfd ▸ ho)
    · rw [if_neg hfd, hset _ (hkey fd' hne' hfd)]
      exact h.held fd' hne' nofun
  · have hsock : sock ≠ (s.handle fd).toNat := by
      intro he
      have hno' := hno fd (by rw [hhead]; exact hne)
      rw [hhandle] at hno'
      exact hno' he.symm
    rw [hset sock hsock]
    refine h.free sock fun fd' hne' => ?_
    have hno' := hno fd' (by rw [hhead]; exact hne')
    rwa [hhandle] at hno'

/-- What one round of `fd_reify` leaves: what it still has to look at, and that what was queued meanwhile has no
watchers. -/
structure Looking (rest : List ℕ) (n : ℕ) (s : Sockets W) : Prop where
  inv : s.Inv none rest n
  dead : ∀ fd ∈ s.fds.fdchanges.drop n, s.backend = .epoll ∧ (s.fds.anfds fd).head = []

theorem Inv.tracked_reify (h : s.Inv none (fd :: rest) n) :
    (s.fds.reify fd).Tracked (rest ++ s.fds.fdchanges.drop n) := Fds.Tracked.reify h.tracked

/-- An index that is told of a mask has watchers, or had a mask. -/
theorem claimed_reify (fd : ℕ) {fd' : ℕ} (hc : ((s.fds.reify fd).anfds fd').events ≠ 0 ∨ ((s.fds.reify fd).anfds fd').head ≠ []) :
    s.Claimed fd' := by
  rw [Fds.events_reify, Fds.head_reify] at hc
  rcases hc with hc | hc
  · split at hc
    · rename_i he
      exact .inr fun h0 => hc (Fds.wanted_nil (he ▸ h0))
    · exact .inl hc
  · exact .inr hc

theorem alike_reify (he : (s.fds.anfds fd).events = s.fds.wanted fd) :
    Alike s { s with fds := s.fds.reify fd } := by
  refine ⟨Fds.head_reify s.fds fd, fun fd' => ?_, emask_reify s.fds fd, rfl, rfl, rfl, fun _ _ => rfl, rfl, rfl, rfl,
    rfl, rfl⟩
  refine (Fds.events_reify ..).trans ?_
  split
  · rename_i hfd
    rw [hfd, he]
  · rfl

theorem Inv.selectModify (h : s.Inv none (fd :: rest) n) (hb : s.backend ≠ .epoll)
    (hfd : (s.fds.anfds fd).events ≠ s.fds.wanted fd → fd < s.setsize) :
    (({ s with fds := s.fds.reify fd } : Sockets W).selectModify fd (s.fds.anfds fd).events (s.fds.wanted fd)).Inv
      none rest n := by
  unfold Sockets.selectModify
  by_cases he : (s.fds.anfds fd).events = s.fds.wanted fd
  · rw [if_pos he]
    exact (alike_reify he).inv h h.tracked_reify h.long
  · rw [if_neg he]
    have hin := h.select hb
    have hclaimed : s.Claimed fd := by
      by_cases h0 : (s.fds.anfds fd).events = 0
      · exact .inr fun hn => he (by rw [h0, Fds.wanted_nil hn])
      · exact .inl h0
    have hapart : ∀ i fd', (s.fds.anfds fd').events.getLsbD i = true → s.handle fd' = s.handle fd → fd' = fd := by
      intro i fd' hbit hh
      refine h.apart fd' fd (.inl fun h0 => ?_) hclaimed hh
      rw [h0] at hbit
      simp at hbit
    have hread : ∀ x : BitVec 8, x &&& readBit ≠ 0 ↔ x.getLsbD 0 = true := by decide
    have hwrite : ∀ x : BitVec 8, x &&& writeBit ≠ 0 ↔ x.getLsbD 1 = true := by decide
    have hri := selectSet_ok hread (s.fds.wanted fd) hin.ri hin.small (hfd he) (hapart 0)
    have hwi := selectSet_ok hwrite (s.fds.wanted fd) hin.wi hin.small (hfd he) (hapart 1)
    refine ⟨h.tracked_reify, h.long, h.named, fun fd' fd'' hc hc' => h.apart fd' fd'' (claimed_reify fd hc) (claimed_reify fd hc'),
      fun hb' => absurd hb' hb, fun _ => ⟨fun fd' h0 => ?_, ⟨hri.1, fun sock => ?_⟩, ⟨hwi.1, fun sock => ?_⟩⟩⟩
    · by_cases hfd' : fd' = fd
      · rw [hfd']
        exact hfd he
      · refine hin.small fd' ?_
        have h1 : ((s.fds.reify fd).anfds fd').events ≠ 0 := h0
        rwa [Fds.events_reify, if_neg hfd'] at h1
    · refine (hri.2 sock).trans (exists_congr fun fd' => ?_)
      rw [← Fds.events_reify]
    · refine (hwi.2 sock).trans (exists_congr fun fd' => ?_)
      rw [← Fds.events_reify]

/-- A mask of 0 is not told, and an index without a mask has none to be told. -/
theorem Inv.reifyNone (h : s.Inv none (fd :: rest) n) (hb : s.backend = .epoll) (h0 : s.fds.wanted fd = 0) :
    ({ s with fds := s.fds.reify fd } : Sockets W).Inv none rest n := by
  obtain ⟨t, ht⟩ : ∃ t : Sockets W, t = { s with fds := s.fds.reify fd } := ⟨_, rfl⟩
  have hhead : ∀ fd', (t.fds.anfds fd').head = (s.fds.anfds fd').head := by rw [ht]; exact Fds.head_reify s.fds fd
  have hemask : ∀ fd', (t.fds.anfds fd').emask = (s.fds.anfds fd').emask := by rw [ht]; exact emask_reify s.fds fd
  have hevents : ∀ fd', (t.fds.anfds fd').events = if fd' = fd then 0 else (s.fds.anfds fd').events := by
    rw [ht, ← h0]
    exact Fds.events_reify s.fds fd
  have hkept := h.epoll hb
  have hk : t.kernel = s.kernel ∧ t.handle = s.handle := by rw [ht]; exact ⟨rfl, rfl⟩
  have hkept' : t.Kept none := by
    refine ⟨fun fd' hn => ?_, fun fd' he => ?_, by rw [hk.1]; exact hkept.serves, ?_, ?_⟩
    · rw [hhead] at hn
      rw [hevents, hemask]
      refine ⟨?_, (hkept.gone fd' hn).2⟩
      split
      · rfl
      · exact (hkept.gone fd' hn).1
    · rw [hevents] at he
      rw [hevents, hemask]
      split at he
      · exact absurd rfl he
      · rename_i hfd
        rw [if_neg hfd]
        exact hkept.emask fd' he
    · simpa only [hhead, hemask, hk.1, hk.2] using hkept.held
    · simpa only [hhead, hk.1, hk.2] using hkept.free
  rw [← ht]
  refine ⟨?_, ?_, ?_, fun fd' fd'' hc hc' => ?_, fun _ => hkept', fun hb' => ?_⟩
  · rw [ht]
    exact h.tracked_reify
  · rw [ht]
    exact h.long
  · rw [ht]
    exact h.named
  · rw [hk.2]
    rw [ht] at hc hc'
    exact h.apart fd' fd'' (claimed_reify fd hc) (claimed_reify fd hc')
  · rw [ht] at hb'
    exact absurd hb hb'

theorem alike_setEgen (s : Sockets W) (fd egen : ℕ) : Alike s { s with fds := s.fds.setEgen fd egen } := by
  have h : ∀ fd', ((s.fds.setEgen fd egen).anfds fd').head = (s.fds.anfds fd').head ∧
      ((s.fds.setEgen fd egen).anfds fd').events = (s.fds.anfds fd').events ∧
      ((s.fds.setEgen fd egen).anfds fd').emask = (s.fds.anfds fd').emask := by
    intro fd'
    by_cases he : fd' = fd
    · simp [Fds.setEgen, he]
    · simp [Fds.setEgen, he]
  exact ⟨fun fd' => (h fd').1, fun fd' => (h fd').2.1, fun fd' => (h fd').2.2, rfl, rfl, rfl, fun _ _ => rfl, rfl, rfl,
    rfl, rfl, rfl⟩

theorem Inv.setEgen (h : s.Inv out rest n) (fd egen : ℕ) :
    ({ s with fds := s.fds.setEgen fd egen } : Sockets W).Inv out rest n :=
  (alike_setEgen s fd egen).inv h (h.tracked.alike (Fds.alike_setFd _ _ _ rfl rfl rfl)) h.long

end

/-- wepoll is told the mask of an index, and takes it or has the watchers stopped. -/
theorem Looking.epollModify (h : s.Looking (fd :: rest) n) (hb : s.backend = .epoll) (hn : s.fds.wanted fd ≠ 0)
    (oev : BitVec 8) :
    (({ s with fds := s.fds.reify fd } : Sockets W).epollModify fd oev (s.fds.wanted fd)).Looking rest n := by
  obtain ⟨h, hdead⟩ := h
  have hkept := h.epoll hb
  have hne : (s.fds.anfds fd).head ≠ [] := fun h0 => hn (Fds.wanted_nil h0)
  obtain ⟨-, -, -, -, hreal⟩ := h.mem_head hne
  obtain ⟨f, hf⟩ : ∃ f : Fds W, f = ((s.fds.reify fd).setEmask fd (s.fds.wanted fd)).setEgen fd
    (((s.fds.reify fd).anfds fd).egen + 1) := ⟨_, rfl⟩
  have halike : Fds.Alike (s.fds.reify fd) f := by
    rw [hf]
    exact (Fds.alike_setFd (s.fds.reify fd) fd { (s.fds.reify fd).anfds fd with emask := s.fds.wanted fd }
      rfl rfl rfl).trans (Fds.alike_setFd _ _ _ rfl rfl rfl)
  have hhead : ∀ fd', (f.anfds fd').head = (s.fds.anfds fd').head := fun fd' =>
    (halike.head fd').trans (Fds.head_reify ..)
  have hevents : ∀ fd', (f.anfds fd').events = if fd' = fd then s.fds.wanted fd else (s.fds.anfds fd').events :=
    fun fd' => (halike.events fd').trans (Fds.events_reify ..)
  have hemask : ∀ fd', (f.anfds fd').emask = if fd' = fd then s.fds.wanted fd else (s.fds.anfds fd').emask := by
    intro fd'
    rw [hf]
    by_cases he : fd' = fd
    · simp [Fds.setEgen, Fds.setEmask, he]
    · simp only [Fds.setEgen, Fds.setEmask, Function.update_of_ne he, if_neg he]
      exact emask_reify ..
  have hkey : ∀ fd', (s.fds.anfds fd').head ≠ [] → fd' ≠ fd → (s.handle fd').toNat ≠ (s.handle fd).toNat :=
    fun fd' hc hfd => h.key_ne (.inr hne) (.inr hc) hfd
  -- what holds whatever wepoll answered
  have htold : ∀ (out : Option ℕ) (k : Kernel), k.answers = s.kernel.answers →
      (∀ sock, sock ≠ (s.handle fd).toNat → k.set sock = s.kernel.set sock) →
      (out ≠ some fd → (k.set (s.handle fd).toNat).map EpollEvent.events = some (kernelMask (s.fds.wanted fd))) →
      ({ s with fds := f, kernel := k } : Sockets W).Inv out rest n := by
    intro out k hans hset hout
    refine ⟨?_, ?_, fun v hv => ?_, fun fd' fd'' hc hc' => ?_, fun _ => ?_, fun hb' => absurd hb hb'⟩
    · show f.Tracked (rest ++ f.fdchanges.drop n)
      rw [halike.fdchanges]
      exact h.tracked_reify.alike halike
    · show n ≤ f.fdchanges.length
      rw [halike.fdchanges]
      exact h.long
    · show s.handle (f.fd v) = s.wHandle v ∧ _
      rw [halike.wfd]
      exact h.named v (by rw [← show f.active = s.fds.active from halike.active]; exact hv)
    · refine h.apart fd' fd'' (claimed_reify fd ?_) (claimed_reify fd ?_)
      · rw [← halike.events, ← halike.head]
        exact hc
      · rw [← halike.events, ← halike.head]
        exact hc'
    · exact hkept.told fd hn hhead hne hevents hemask rfl hans hset hkey hout
  have hold := hkept.held fd hne fun hc => by cases hc
  have hm : ((s.fds.reify fd).anfds fd).emask = (s.fds.anfds fd).emask := emask_reify ..
  unfold Sockets.epollModify
  rw [if_neg hn]
  dsimp only
  rw [← hf, show fdToSock { s with fds := f } fd = (s.handle fd).toNat from if_pos hreal, hm]
  have hnoeperm := register_served hkept.serves (s.handle fd).toNat oev (s.fds.wanted fd) (s.fds.anfds fd).emask
    ⟨kernelMask (s.fds.wanted fd), fd, BitVec.ofNat 32 (((s.fds.reify fd).anfds fd).egen + 1)⟩
  obtain ⟨hans, -⟩ := Loop.register_frame (s.handle fd).toNat oev (s.fds.wanted fd) (s.fds.anfds fd).emask
    ⟨kernelMask (s.fds.wanted fd), fd, BitVec.ofNat 32 (((s.fds.reify fd).anfds fd).egen + 1)⟩ s.kernel
  have hset := Loop.register_set (s.handle fd).toNat oev (s.fds.wanted fd) (s.fds.anfds fd).emask
    ⟨kernelMask (s.fds.wanted fd), fd, BitVec.ofNat 32 (((s.fds.reify fd).anfds fd).egen + 1)⟩ hkept.serves.accepts
  generalize register (s.handle fd).toNat oev (s.fds.wanted fd) (s.fds.anfds fd).emask
    ⟨kernelMask (s.fds.wanted fd), fd, BitVec.ofNat 32 (((s.fds.reify fd).anfds fd).egen + 1)⟩ s.kernel = r
    at hans hnoeperm hset
  obtain ⟨k, r⟩ := r
  have hdead' : ∀ fd' ∈ f.fdchanges.drop n, s.backend = .epoll ∧ (f.anfds fd').head = [] := by
    intro fd' hm'
    rw [halike.fdchanges] at hm'
    rw [hhead]
    exact hdead fd' hm'
  cases r with
  | done =>
    replace hset : k.set = _ := hset
    refine ⟨htold none k hans (fun sock hs => ?_) fun _ => ?_, hdead'⟩
    · rw [hset, Function.update_of_ne hs]
    · rw [hset, Function.update_self]
      rfl
  | eperm => exact absurd rfl hnoeperm
  | decEgen =>
    replace hset : k.set = s.kernel.set ∧ _ ∧ _ := hset
    obtain ⟨hset, -, holdmask⟩ := hset
    refine ⟨(htold none k hans (fun sock _ => by rw [hset]) fun _ => ?_).setEgen fd _, fun fd' hm' => ?_⟩
    · rw [hset, hold, holdmask, if_neg hn]
    · obtain ⟨h₁, h₂⟩ := hdead' fd' hm'
      exact ⟨h₁, ((alike_setEgen { s with fds := f, kernel := k } fd _).head fd').trans h₂⟩
  | kill =>
    replace hset : k.set = s.kernel.set ∧ _ := hset
    have hinv := htold (some fd) k hans (fun sock _ => by rw [hset.1]) fun hc => absurd rfl hc
    obtain ⟨h₁, h₂, h₃, h₄, h₅⟩ := Inv.killLoop fd _ hinv le_rfl
    dsimp only
    obtain ⟨u, hu⟩ : ∃ u, u = ({ s with fds := f, kernel := k } : Sockets W).fdKill fd := ⟨_, rfl⟩
    rw [← hu]
    replace hu : u = fdKillLoop fd _ { s with fds := f, kernel := k } := hu
    rw [← hu] at h₁ h₂ h₃ h₄ h₅
    have hkept' := h₁.epoll (h₅.trans hb)
    have hu' : u.Inv none rest n := by
      refine ⟨h₁.tracked, h₁.long, h₁.named, h₁.apart, fun _ => ⟨hkept'.gone, hkept'.emask, hkept'.serves,
        fun fd' hne' _ => hkept'.held fd' hne' fun he => hne' ?_, hkept'.free⟩, fun hb' => absurd (h₅.trans hb) hb'⟩
      cases he
      exact h₂
    refine ⟨hu'.setEgen fd _, fun fd' hm' => ⟨h₅.trans hb, ((alike_setEgen u fd _).head fd').trans ?_⟩⟩
    by_cases hfd : fd' = fd
    · rw [hfd]
      exact h₂
    · rw [h₃ fd' hfd]
      exact (hdead' fd' ((h₄ fd' hm').resolve_right hfd)).2

theorem backend_evIoStop (s : Sockets W) (w : W) : (s.evIoStop w).backend = s.backend := by
  unfold evIoStop
  split
  · rfl
  · dsimp only
    split
    · rfl
    · rfl

theorem backend_fdKillLoop (fd k : ℕ) (s : Sockets W) : (fdKillLoop fd k s).backend = s.backend := by
  induction k generalizing s with
  | zero => rfl
  | succ k ih =>
    unfold fdKillLoop
    split
    · rfl
    · rw [ih, backend_evIoStop]

theorem backend_epollModify (s : Sockets W) (fd : ℕ) (oev nev : BitVec 8) :
    (s.epollModify fd oev nev).backend = s.backend := by
  unfold Sockets.epollModify
  split
  · rfl
  · dsimp only
    split
    · rfl
    · rfl
    · rfl
    · exact backend_fdKillLoop ..

/-- The indices that are still to be told about fit into an `fd_set`. -/
def Room (rest : List ℕ) (s : Sockets W) : Prop :=
  s.backend ≠ .epoll → ∀ fd ∈ rest, (s.fds.anfds fd).events ≠ s.fds.wanted fd → fd < s.setsize

section

omit [DecidableEq W]

theorem Looking.none (h : s.Looking (fd :: rest) n) (he : (s.fds.anfds fd).events = s.fds.wanted fd) :
    ({ s with fds := s.fds.reify fd } : Sockets W).Looking rest n := by
  refine ⟨(alike_reify he).inv h.inv h.inv.tracked_reify h.inv.long, fun fd' hm => ?_⟩
  obtain ⟨hb, hh⟩ := h.dead fd' hm
  exact ⟨hb, (Fds.head_reify ..).trans hh⟩

end

/-- One round of `fd_reify`. -/
theorem Looking.one (h : s.Looking (fd :: rest) n) (hroom : s.Room (fd :: rest)) :
    (fdReifyOne s fd).Looking rest n := by
  unfold fdReifyOne
  rw [Fds.change_eq]
  by_cases hc : (s.fds.anfds fd).events = s.fds.wanted fd ∧ (s.fds.anfds fd).reify.getLsbD 7 = false
  · rw [if_pos hc]
    exact h.none hc.1
  · rw [if_neg hc]
    dsimp only
    unfold backendModify
    by_cases hb : s.backend = .epoll
    · rw [if_pos hb]
      by_cases h0 : s.fds.wanted fd = 0
      · rw [show Sockets.epollModify _ _ _ (s.fds.wanted fd) = _ from if_pos h0]
        refine ⟨h.inv.reifyNone hb h0, fun fd' hm => ⟨hb, (Fds.head_reify ..).trans (h.dead fd' hm).2⟩⟩
      · exact h.epollModify hb h0 _
    · rw [if_neg hb]
      refine ⟨h.inv.selectModify hb (hroom hb fd List.mem_cons_self), fun fd' hm => ?_⟩
      have hfds : (({ s with fds := s.fds.reify fd } : Sockets W).selectModify fd (s.fds.anfds fd).events
          (s.fds.wanted fd)).fds = s.fds.reify fd := by
        unfold Sockets.selectModify
        split
        · rfl
        · rfl
      rw [hfds] at hm
      exact absurd (h.dead fd' hm).1 hb

theorem Room.one (hroom : s.Room (fd :: rest)) : (fdReifyOne s fd).Room rest ∧ (fdReifyOne s fd).backend = s.backend := by
  by_cases hb : s.backend = .epoll
  · have hback : (fdReifyOne s fd).backend = s.backend := by
      unfold fdReifyOne
      dsimp only
      split
      · rfl
      · unfold backendModify
        rw [if_pos hb]
        exact backend_epollModify ..
    exact ⟨fun hb' => absurd (hback.trans hb) hb', hback⟩
  · have hone : (fdReifyOne s fd).fds = s.fds.reify fd ∧ (fdReifyOne s fd).backend = s.backend ∧
        (fdReifyOne s fd).setsize = s.setsize := by
      unfold fdReifyOne
      dsimp only
      split
      · exact ⟨rfl, rfl, rfl⟩
      · unfold backendModify
        rw [if_neg hb]
        unfold Sockets.selectModify
        split
        · exact ⟨rfl, rfl, rfl⟩
        · exact ⟨rfl, rfl, rfl⟩
    refine ⟨fun _ fd' hm hne => ?_, hone.2.1⟩
    rw [hone.2.2]
    rw [hone.1, Fds.events_reify, Fds.wanted_congr (Fds.head_reify s.fds fd fd') fun _ _ => rfl] at hne
    split at hne
    · rename_i he
      exact absurd (by rw [he]) hne
    · exact hroom hb fd' (List.mem_cons_of_mem _ hm) hne

theorem Looking.fold (h : s.Looking rest n) (hroom : s.Room rest) :
    (rest.foldl fdReifyOne s).Looking [] n ∧ (rest.foldl fdReifyOne s).backend = s.backend := by
  induction rest generalizing s with
  | nil => exact ⟨h, rfl⟩
  | cons fd rest ih =>
    obtain ⟨hroom', hb⟩ := hroom.one
    obtain ⟨h', hb'⟩ := ih (h.one hroom) hroom'
    exact ⟨h', hb'.trans hb⟩

/-- What `fd_reify` leaves: nothing to look at but what `fd_kill` has queued, and the recorded masks those
wanted. -/
theorem Inv.fdReify (h : s.Inv none [] 0) (hroom : s.Room s.fds.fdchanges) :
    s.fdReify.Inv none [] 0 ∧ ∀ fd, (s.fdReify.fds.anfds fd).events = s.fdReify.fds.wanted fd := by
  have hdrop : s.fds.fdchanges.drop s.fds.fdchanges.length = [] := List.drop_length
  have hlook : s.Looking s.fds.fdchanges s.fds.fdchanges.length := by
    refine ⟨⟨?_, le_rfl, h.named, h.apart, h.epoll, h.select⟩, fun fd hm => ?_⟩
    · rw [hdrop, List.append_nil]
      exact h.queued
    · rw [hdrop] at hm
      exact absurd hm List.not_mem_nil
  obtain ⟨⟨hinv, hdead⟩, -⟩ := hlook.fold hroom
  obtain ⟨t, ht⟩ : ∃ t : Sockets W, t = s.fds.fdchanges.foldl fdReifyOne s := ⟨_, rfl⟩
  have heq : s.fdReify = { t with fds := t.fds.shift s.fds.fdchanges.length } := by rw [ht]; rfl
  rw [← ht] at hinv hdead
  rw [heq]
  have halike : Alike t { t with fds := t.fds.shift s.fds.fdchanges.length } :=
    ⟨fun _ => rfl, fun _ => rfl, fun _ => rfl, rfl, rfl, rfl, fun _ _ => rfl, rfl, rfl, rfl, rfl, rfl⟩
  refine ⟨halike.inv hinv (hinv.tracked.congr_queue _) (Nat.zero_le _), fun fd => ?_⟩
  show (t.fds.anfds fd).events = t.fds.wanted fd
  by_cases hm : fd ∈ t.fds.fdchanges.drop s.fds.fdchanges.length
  · obtain ⟨hb, hh⟩ := hdead fd hm
    rw [((hinv.epoll hb).gone fd hh).1, Fds.wanted_nil hh]
  · exact hinv.tracked.clean fd hm

section

omit [DecidableEq W]

/-- A socket's active watchers are those of its index. -/
theorem Inv.wanted (h : s.Inv out rest n) (hh : (s.fds.anfds fd).head ≠ []) (i : ℕ) :
    (s.fds.wanted fd).getLsbD i = true ↔ i < 8 ∧ s.Wanted (s.handle fd) i := by
  rw [Fds.getLsbD_wanted]
  refine and_congr_right fun _ => ⟨?_, ?_⟩
  · rintro ⟨w, hw, hbit⟩
    obtain ⟨hact, hfd⟩ := (h.tracked.linked.mem fd w).mp hw
    exact ⟨w, hact, by rw [← (h.named w hact).1, hfd], hbit⟩
  · rintro ⟨w, hact, hsock, hbit⟩
    have hmem := (h.tracked.linked.mem (s.fds.fd w) w).mpr ⟨hact, rfl⟩
    have hfd := h.apart (s.fds.fd w) fd (.inr (List.ne_nil_of_mem hmem)) (.inr hh)
      ((h.named w hact).1.trans hsock)
    exact ⟨w, hfd ▸ hmem, hbit⟩

/-- A socket with active watchers has an index. -/
theorem Inv.indexed (h : s.Inv out rest n) {sock : Handle} (hact : s.fds.active w ≠ 0) (hsock : s.wHandle w = sock) :
    (s.fds.anfds (s.fds.fd w)).head ≠ [] ∧ s.handle (s.fds.fd w) = sock :=
  ⟨List.ne_nil_of_mem ((h.tracked.linked.mem _ w).mpr ⟨hact, rfl⟩), (h.named w hact).1.trans hsock⟩

/-- With the recorded masks those wanted, the backend watches what it should. -/
theorem Inv.told (h : s.Inv none [] 0) (hclean : ∀ fd, (s.fds.anfds fd).events = s.fds.wanted fd) : s.Told := by
  unfold Told
  by_cases hb : s.backend = .epoll
  · rw [if_pos hb]
    have hk := h.epoll hb
    intro sock
    by_cases hex : ∃ w, s.fds.active w ≠ 0 ∧ s.wHandle w = sock
    · obtain ⟨w, hact, hsock⟩ := hex
      obtain ⟨hh, rfl⟩ := h.indexed hact hsock
      refine ⟨s.fds.wanted (s.fds.fd w), h.wanted hh, fun hm => ?_, fun hno => absurd hsock (hno w hact)⟩
      rw [← hclean] at hm ⊢
      rw [hk.held _ hh nofun, hk.emask _ hm, if_neg hm]
    · have hno : ∀ w, s.fds.active w ≠ 0 → s.wHandle w ≠ sock := fun w hact hsock => hex ⟨w, hact, hsock⟩
      refine ⟨0, fun i => iff_of_false (by simp) ?_, fun h0 => absurd rfl h0, fun _ => hk.free _ fun fd hh he => ?_⟩
      · rintro ⟨-, w, hact, hsock, -⟩
        exact hno w hact hsock
      · obtain ⟨w, hact, -, hw, -⟩ := h.mem_head hh
        exact hno w hact (hw.symm.trans (BitVec.eq_of_toNat_eq he))
  · rw [if_neg hb]
    have hin := h.select hb
    have hset : ∀ {i set sock}, s.SetOk i set → i < 8 → (sock ∈ set ↔ s.Wanted sock i) := by
      intro i set sock hok hi
      rw [hok.mem]
      constructor
      · rintro ⟨fd, hbit, rfl⟩
        rw [hclean] at hbit
        have hh : (s.fds.anfds fd).head ≠ [] := fun h0 => by
          rw [Fds.wanted_nil h0] at hbit
          simp at hbit
        exact ((h.wanted hh i).mp hbit).2
      · rintro ⟨w, hact, hsock, hbit⟩
        obtain ⟨hh, rfl⟩ := h.indexed hact hsock
        exact ⟨_, by rw [hclean]; exact (h.wanted hh i).mpr ⟨hi, w, hact, hsock, hbit⟩, rfl⟩
    exact fun sock => ⟨hset hin.ri (by decide), hset hin.wi (by decide)⟩

end

/-! ### Runs -/

theorem Inv.step (h : s.Inv none [] 0) {a : Act W} (hall : s.Allowed a) (hset : s.Settled a) :
    (s.step a).Inv none [] 0 := by
  cases a with
  | evIoInitSock w sock events => exact h.initSock hall.1 sock events
  | evIoStart w fd =>
    cases fd with
    | none => exact h
    | some fd =>
      show (if s.fds.active w ≠ 0 then s else s.evIoStart w fd).Inv none [] 0
      by_cases hw : s.fds.active w = 0
      · obtain ⟨hsock, hmask, hfits⟩ := hall hw
        rw [if_neg (not_not.mpr hw)]
        exact h.start hw hsock hmask hfits (hset hw)
      · rw [if_pos hw]
        exact h
  | evIoStop w => exact h.stop w
  | evIoModify w events => exact h.modify w events
  | fdReify => exact (h.fdReify hall).1

/-- In every run in which `select` gives neither an index nor a socket away before `fd_reify`, each `fd_reify`
leaves the backend with the sockets that have active watchers, each with the union of their masks. -/
theorem sockets_watched (backend : Backend) (setsize : ℕ) (accepts : ℕ → Bool) {acts : List (Act W)}
    (hrun : Run (fun s a t => Allowed s a ∧ Settled s a ∧ t = step s a) (init backend setsize accepts)
      (acts ++ [.fdReify]) s) : s.Told := by
  obtain ⟨t, h₁, h₂⟩ := hrun.of_append
  have ht : t.Inv none [] 0 := by
    refine h₁.invariant (fun s a t hs hst => ?_) (inv_init backend setsize accepts)
    obtain ⟨hall, hset, rfl⟩ := hst
    exact hs.step hall hset
  cases h₂ with
  | cons hst hnil =>
    cases hnil
    obtain ⟨hall, -, rfl⟩ := hst
    obtain ⟨hinv, hclean⟩ := ht.fdReify hall
    exact hinv.told hclean

/-- With `select` a second socket gets the index of the first once `fd_reify` has taken that out of the sets. -/
theorem sockets_watched_again : ∃ s : Sockets Bool, s.ri = [6] ∧ s.Told := by
  have hrun : ∃ s : Sockets Bool, Run (fun s a t => Allowed s a ∧ Settled s a ∧ t = step s a)
      (init .select 64 fun _ => true) ([.evIoInitSock false 5 evRead, .evIoStart false (some 0), .fdReify,
        .evIoStop false, .fdReify, .evIoInitSock true 6 evRead, .evIoStart true (some 0)] ++ [.fdReify]) s ∧
      s.ri = [6] :=
    ⟨_, .cons ⟨by decide +kernel, trivial, rfl⟩ <|
      .cons ⟨by decide +kernel, fun _ _ _ he => absurd rfl he, rfl⟩ <|
      .cons ⟨by decide +kernel, trivial, rfl⟩ <| .cons ⟨trivial, trivial, rfl⟩ <|
      .cons ⟨by decide +kernel, trivial, rfl⟩ <| .cons ⟨by decide +kernel, trivial, rfl⟩ <|
      .cons ⟨by decide +kernel, fun _ _ fd he => absurd (by cases fd <;> rfl) he, rfl⟩ <|
      .cons ⟨by decide +kernel, trivial, rfl⟩ <| .nil _, by decide +kernel⟩
  obtain ⟨s, hrun, hri⟩ := hrun
  exact ⟨s, hri, sockets_watched .select 64 (fun _ => true) hrun⟩

/-- wepoll keeps the registration of a socket whose watcher no longer wants anything. With `select` a socket that
gets the index of another before `fd_reify` is not watched, and the other still is. -/
theorem sockets_watched_exact :
    (∃ s : Sockets Bool, Run (fun s a t => Allowed s a ∧ t = step s a) (init .epoll 64 fun _ => true)
      [.evIoInitSock false 5 evRead, .evIoStart false (some 0), .fdReify, .evIoModify false 0, .fdReify] s ∧
      ¬ s.Exact) ∧
    ∃ s : Sockets Bool, Run (fun s a t => Allowed s a ∧ t = step s a) (init .select 64 fun _ => true)
      [.evIoInitSock false 5 evRead, .evIoStart false (some 0), .fdReify, .evIoStop false,
        .evIoInitSock true 6 evRead, .evIoStart true (some 0), .fdReify] s ∧ ¬ s.Exact := by
  constructor
  · refine ⟨_, .cons ⟨by decide +kernel, rfl⟩ <| .cons ⟨by decide +kernel, rfl⟩ <| .cons ⟨by decide +kernel, rfl⟩ <|
      .cons ⟨by decide +kernel, rfl⟩ <| .cons ⟨by decide +kernel, rfl⟩ <| .nil _, fun h => ?_⟩
    obtain ⟨m, hm, hset⟩ := (if_pos rfl).mp h 5
    have h0 : m = 0 := BitVec.eq_of_getLsbD_eq fun i hi => by
      refine (Bool.eq_false_iff.mpr fun hb => ?_).trans (by simp)
      refine absurd ((hm i).mp hb).2 ?_
      clear hb
      revert i
      decide +kernel
    rw [if_pos h0] at hset
    revert hset
    decide +kernel
  · refine ⟨_, .cons ⟨by decide +kernel, rfl⟩ <| .cons ⟨by decide +kernel, rfl⟩ <| .cons ⟨by decide +kernel, rfl⟩ <|
      .cons ⟨by decide +kernel, rfl⟩ <| .cons ⟨by decide +kernel, rfl⟩ <| .cons ⟨by decide +kernel, rfl⟩ <|
      .cons ⟨by decide +kernel, rfl⟩ <| .nil _, fun h => ?_⟩
    have h5 := (h 5).1
    revert h5
    decide +kernel

end Sockets
end Win32
end Qev
