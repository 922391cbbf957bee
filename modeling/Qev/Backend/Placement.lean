/-
# linuxaio loses no fd

Where an fd stands is found by what the backend was told of it: its iocb is queued, or
its request is in flight or completed and unread, or the epoll set has it (`Placed`).
Every part of a poll moves fds between these places or back into `fdchanges` with mask
0, and the reify before the poll has left nothing else in `fdchanges`.
-/
import Qev.Backend.Aio

namespace Qev

open Lib

namespace Fds

variable {W : Type} [DecidableEq W] {s t u : Fds W}

/-- All but what the epoll backend keeps of an fd is the same. -/
structure Alike (s t : Fds W) : Prop where
  head : ∀ fd, (t.anfds fd).head = (s.anfds fd).head
  events : ∀ fd, (t.anfds fd).events = (s.anfds fd).events
  reify : ∀ fd, (t.anfds fd).reify = (s.anfds fd).reify
  anfdmax : t.anfdmax = s.anfdmax
  fdchanges : t.fdchanges = s.fdchanges
  wfd : t.fd = s.fd
  wevents : t.events = s.events
  active : t.active = s.active

section

omit [DecidableEq W]

theorem Alike.refl (s : Fds W) : Alike s s := ⟨fun _ => rfl, fun _ => rfl, fun _ => rfl, rfl, rfl, rfl, rfl, rfl⟩

theorem Alike.trans (h : Alike s t) (h' : Alike t u) : Alike s u :=
  ⟨fun fd => (h'.head fd).trans (h.head fd), fun fd => (h'.events fd).trans (h.events fd),
    fun fd => (h'.reify fd).trans (h.reify fd), h'.anfdmax.trans h.anfdmax, h'.fdchanges.trans h.fdchanges,
    h'.wfd.trans h.wfd, h'.wevents.trans h.wevents, h'.active.trans h.active⟩

theorem Alike.wanted (h : Alike s t) (fd : ℕ) : t.wanted fd = s.wanted fd :=
  wanted_congr (h.head fd) fun w _ => by rw [h.wevents]

theorem alike_setFd (s : Fds W) (fd : ℕ) (a : ANFD W) (hh : a.head = (s.anfds fd).head)
    (he : a.events = (s.anfds fd).events) (hr : a.reify = (s.anfds fd).reify) : Alike s (s.setFd fd a) := by
  refine ⟨fun fd' => ?_, fun fd' => ?_, fun fd' => ?_, rfl, rfl, rfl, rfl, rfl⟩
  all_goals
    simp only [setFd]
    by_cases h : fd' = fd
  · rw [h, Function.update_self, hh]
  · rw [Function.update_of_ne h]
  · rw [h, Function.update_self, he]
  · rw [Function.update_of_ne h]
  · rw [h, Function.update_self, hr]
  · rw [Function.update_of_ne h]

theorem Tracked.alike {queue : List ℕ} (h : s.Tracked queue) (ha : Alike s t) : t.Tracked queue := by
  refine ⟨⟨fun fd w => ?_, fun fd => ?_⟩, fun fd hfd => ?_, fun w hw => ?_, fun fd hr => ?_, fun fd hfd => ?_⟩
  · rw [ha.head, ha.active, ha.wfd]
    exact h.linked.mem fd w
  · rw [ha.head]
    exact h.linked.nodup fd
  · rw [ha.head, ha.events]
    exact h.bound fd (ha.anfdmax ▸ hfd)
  · rw [ha.active] at hw
    rw [ha.wevents]
    exact h.mask w hw
  · rw [ha.reify] at hr
    exact h.queued fd hr
  · rw [ha.events, ha.wanted]
    exact h.clean fd hfd

/-- From `s` to `t` the watchers of an fd have been stopped. -/
structure Killed (fd : ℕ) (s t : Fds W) : Prop where
  tracked : t.Tracked t.fdchanges
  events : ∀ fd, (t.anfds fd).events = (s.anfds fd).events
  head : (t.anfds fd).head = []
  other : ∀ fd', fd' ≠ fd → (t.anfds fd').head = (s.anfds fd').head ∧ (t.anfds fd').reify = (s.anfds fd').reify
  sub : ∀ fd' ∈ t.fdchanges, fd' ∈ s.fdchanges ∨ fd' = fd

theorem Killed.alike {fd : ℕ} (h : Killed fd s t) (hs : Alike u s) {v : Fds W} (ht : Alike t v) : Killed fd u v := by
  refine ⟨by rw [ht.fdchanges]; exact h.tracked.alike ht, fun fd' => ?_, by rw [ht.head, h.head], fun fd' hne => ?_,
    fun fd' hm => ?_⟩
  · rw [ht.events, h.events, hs.events]
  · rw [ht.head, ht.reify, (h.other fd' hne).1, (h.other fd' hne).2, hs.head, hs.reify]
    exact ⟨rfl, rfl⟩
  · rw [ht.fdchanges] at hm
    rw [← hs.fdchanges]
    exact h.sub fd' hm

end

theorem reify_stop (s : Fds W) (w : W) {fd : ℕ} (hfd : fd ≠ s.fd w) :
    ((s.stop w).anfds fd).reify = (s.anfds fd).reify := by
  unfold stop
  rw [reify_fdChange, if_neg hfd]
  simp [wlistDel, setFd, hfd]

theorem mem_fdchanges_stop (s : Fds W) (w : W) {fd : ℕ} (hfd : fd ∈ (s.stop w).fdchanges) :
    fd ∈ s.fdchanges ∨ fd = s.fd w := by
  unfold stop at hfd
  rw [fdchanges_fdChange] at hfd
  split at hfd
  · replace hfd : fd ∈ s.fdchanges ++ [s.fd w] := hfd
    simpa using hfd
  · exact .inl hfd

end Fds

namespace Loop

variable {U T K : Type} [DecidableEq U]

theorem killed_fdKillLoop (fd n : ℕ) (l : Loop U T K) (ht : l.fds.Tracked l.fds.fdchanges)
    (hn : (l.fds.anfds fd).head.length ≤ n) : Fds.Killed fd l.fds (fdKillLoop fd n l).fds := by
  induction n generalizing l with
  | zero =>
    have hnil : (l.fds.anfds fd).head = [] := List.eq_nil_of_length_eq_zero (Nat.le_zero.mp hn)
    exact ⟨ht, fun _ => rfl, hnil, fun _ _ => ⟨rfl, rfl⟩, fun _ h => .inl h⟩
  | succ n ih =>
    unfold fdKillLoop
    cases hh : (l.fds.anfds fd).head with
    | nil => exact ⟨ht, fun _ => rfl, hh, fun _ _ => ⟨rfl, rfl⟩, fun _ h => .inl h⟩
    | cons w ws =>
      obtain ⟨hact, hfd⟩ := (ht.linked.mem fd w).mp (hh ▸ List.mem_cons_self)
      have hstop : ((l.evIoStop w).evFeedEvent (.io w) (evError ||| evRead ||| evWrite)).fds = l.fds.stop w := by
        show (l.evIoStop w).fds = _
        rw [fds_evIoStop, if_neg hact]
      have ih := ih ((l.evIoStop w).evFeedEvent (.io w) (evError ||| evRead ||| evWrite))
      rw [hstop] at ih
      have hk := ih (ht.stop w) (by
        rw [Fds.head_stop, if_pos hfd.symm, hh, List.erase_cons_head]
        rw [hh, List.length_cons] at hn
        omega)
      refine ⟨hk.tracked, fun fd' => (hk.events fd').trans ((Fds.still_stop _ w).events fd'), hk.head, fun fd' hne => ?_, fun fd' hm => ?_⟩
      · obtain ⟨h₁, h₂⟩ := hk.other fd' hne
        rw [h₁, h₂, Fds.head_stop, if_neg (by rw [hfd]; exact hne), Fds.reify_stop _ _ (by rw [hfd]; exact hne)]
        exact ⟨rfl, rfl⟩
      · rcases hk.sub fd' hm with hm | hm
        · rw [← hfd]
          exact Fds.mem_fdchanges_stop _ _ hm
        · exact .inr hm

theorem killed_fdKill (fd : ℕ) (l : Loop U T K) (ht : l.fds.Tracked l.fds.fdchanges) :
    Fds.Killed fd l.fds (l.fdKill fd).fds :=
  killed_fdKillLoop fd _ l ht le_rfl

open Epoll

variable {l : Loop U T Epoll.Kernel}

/-- What `epoll_modify` does to the other fds. -/
theorem epollModify_frame (fd : ℕ) (oev nev : BitVec 8) (hk : l.kernel.Accepts) :
    ∀ fd', fd' ≠ fd → (epollModify fd oev nev l).kernel.set fd' = l.kernel.set fd' ∧
      ((epollModify fd oev nev l).fds.anfds fd').egen = (l.fds.anfds fd').egen ∧
      ((epollModify fd oev nev l).fds.anfds fd').emask = (l.fds.anfds fd').emask := by
  intro fd' hne
  have hegen : ∀ (l : Loop U T Epoll.Kernel) (egen : ℕ),
      (l.setEgen fd egen).fds.anfds fd' = l.fds.anfds fd' := fun l egen => Function.update_of_ne hne ..
  have hemask : ∀ (l : Loop U T Epoll.Kernel) (emask : BitVec 8),
      (l.setEmask fd emask).fds.anfds fd' = l.fds.anfds fd' := fun l emask => Function.update_of_ne hne ..
  by_cases hn : nev = 0
  · unfold epollModify
    rw [if_pos hn]
    exact ⟨rfl, rfl, rfl⟩
  obtain ⟨l₁, hl₁⟩ : ∃ l₁, l₁ = (l.setEmask fd nev).setEgen fd ((l.fds.anfds fd).egen + 1) := ⟨_, rfl⟩
  obtain ⟨-, -, heq⟩ := epollModify_eq fd oev hn hl₁
  have h₁ : l₁.fds.anfds fd' = l.fds.anfds fd' := by rw [hl₁, hegen, hemask]
  have hset := register_set fd oev nev (l.fds.anfds fd).emask
    ⟨kernelMask nev, fd, BitVec.ofNat 32 ((l.fds.anfds fd).egen + 1)⟩ hk
  rw [heq]
  generalize register fd oev nev (l.fds.anfds fd).emask
    ⟨kernelMask nev, fd, BitVec.ofNat 32 ((l.fds.anfds fd).egen + 1)⟩ l.kernel = q at hset ⊢
  obtain ⟨k, out⟩ := q
  cases out with
  | done =>
    rw [← h₁]
    exact ⟨by rw [show k.set = _ from hset, Function.update_of_ne hne], rfl, rfl⟩
  | eperm =>
    dsimp only
    rw [hemask, h₁]
    refine ⟨?_, rfl, rfl⟩
    split
    · rw [show k.set = _ from hset.1]
    · rw [show k.set = _ from hset.1]
  | decEgen =>
    dsimp only
    rw [hegen, ← h₁]
    refine ⟨?_, rfl, rfl⟩
    show k.set fd' = _
    rw [show k.set = _ from hset.1]
  | kill =>
    have hk := kernel_fdKill ({ l₁ with kernel := k } : Loop U T Epoll.Kernel) fd
    have hs := still_fdKill ({ l₁ with kernel := k } : Loop U T Epoll.Kernel) fd
    dsimp only
    rw [hegen, hs.egen, hs.emask, ← h₁]
    refine ⟨?_, rfl, rfl⟩
    show (({ l₁ with kernel := k } : Loop U T Epoll.Kernel).fdKill fd).kernel.set fd' = _
    rw [hk, show ({ l₁ with kernel := k } : Loop U T Epoll.Kernel).kernel.set = _ from hset.1]

section

omit [DecidableEq U]

theorem alike_setEmask (fd : ℕ) (emask : BitVec 8) : Fds.Alike l.fds (l.setEmask fd emask).fds :=
  Fds.alike_setFd l.fds fd { l.fds.anfds fd with emask := emask } rfl rfl rfl

theorem alike_setEgen (fd egen : ℕ) : Fds.Alike l.fds (l.setEgen fd egen).fds :=
  Fds.alike_setFd l.fds fd { l.fds.anfds fd with egen := egen } rfl rfl rfl

end

/-- `epoll_modify` leaves the fd in the set or flagged, and the watchers alone; or it kills the fd. -/
theorem epollModify_spec (h : l.Registered) (ht : l.fds.Tracked l.fds.fdchanges) (fd : ℕ) (oev : BitVec 8)
    {nev : BitVec 8} (hn : nev ≠ 0) :
    (Fds.Alike l.fds (epollModify fd oev nev l).fds ∧
      ((epollModify fd oev nev l).kernel.set fd = some ⟨kernelMask nev, fd, (epollModify fd oev nev l).tag fd⟩ ∨
        ((epollModify fd oev nev l).fds.anfds fd).emask = evEmaskEperm)) ∨
    Fds.Killed fd l.fds (epollModify fd oev nev l).fds := by
  obtain ⟨-, hset⟩ := h.modify fd oev hn
  have hfds : (¬ Unusable fd oev nev l ∧ Fds.Alike l.fds (epollModify fd oev nev l).fds) ∨
      Fds.Killed fd l.fds (epollModify fd oev nev l).fds := by
    obtain ⟨l₁, hl₁⟩ : ∃ l₁, l₁ = (l.setEmask fd nev).setEgen fd ((l.fds.anfds fd).egen + 1) := ⟨_, rfl⟩
    obtain ⟨-, -, heq⟩ := epollModify_eq fd oev hn hl₁
    have h₁ : Fds.Alike l.fds l₁.fds := by
      rw [hl₁]
      exact (alike_setEmask fd nev).trans (alike_setEgen fd _)
    have hun : (register fd oev nev (l.fds.anfds fd).emask
        ⟨kernelMask nev, fd, BitVec.ofNat 32 ((l.fds.anfds fd).egen + 1)⟩ l.kernel).2 ≠ .kill →
        ¬ Unusable fd oev nev l := fun hno h => hno h.2
    rw [heq]
    generalize register fd oev nev (l.fds.anfds fd).emask
      ⟨kernelMask nev, fd, BitVec.ofNat 32 ((l.fds.anfds fd).egen + 1)⟩ l.kernel = q at hun ⊢
    obtain ⟨k, out⟩ := q
    cases out with
    | done => exact .inl ⟨hun nofun, h₁⟩
    | eperm => exact .inl ⟨hun nofun, h₁.trans (alike_setEmask fd _)⟩
    | decEgen =>
      exact .inl ⟨hun nofun, h₁.trans (alike_setEgen (l := ({ l₁ with kernel := k } : Loop U T Epoll.Kernel)) fd _)⟩
    | kill =>
      have ht₁ : ({ l₁ with kernel := k } : Loop U T Epoll.Kernel).fds.Tracked l₁.fds.fdchanges := by
        rw [h₁.fdchanges]
        exact ht.alike h₁
      exact .inr ((killed_fdKill fd _ ht₁).alike h₁ (alike_setEgen fd _))
  rcases hfds with ⟨hf, ha⟩ | hk
  · exact .inl ⟨ha, hset hf⟩
  · exact .inr hk

end Loop

/-! ### The ring -/

namespace Aio

namespace Ring

variable {r r' : Ring}

theorem unread_length (r : Ring) : r.unread.length = (r.tail + r.nr - r.head) % r.nr := by
  simp [unread]

/-- The distance from head to tail, as the loop computes it. -/
theorem distance (r : Ring) : (r.tail + r.nr - r.head) % r.nr =
    if r.head ≤ r.tail then r.tail - r.head else r.nr - r.head + r.tail := by
  have h₁ := r.head_lt
  have h₂ := r.tail_lt
  split
  · rw [show r.tail + r.nr - r.head = r.tail - r.head + r.nr by omega, Nat.add_mod_right]
    exact Nat.mod_eq_of_lt (by omega)
  · rw [show r.tail + r.nr - r.head = r.nr - r.head + r.tail by omega]
    exact Nat.mod_eq_of_lt (by omega)

theorem unread_post {c : Completion} (h : r.post c = some r') : r'.unread = r.unread ++ [c] := by
  unfold post at h
  split at h
  · cases h
  rename_i hroom
  cases h
  have h₁ := r.head_lt
  have h₂ := r.tail_lt
  have hd := r.distance
  generalize hn : (r.tail + r.nr - r.head) % r.nr = n at hd
  have hn' : ((r.tail + 1) % r.nr + r.nr - r.head) % r.nr = n + 1 := by
    by_cases hw : r.tail + 1 = r.nr
    · rw [hw, Nat.mod_self] at hroom ⊢
      rw [Nat.zero_add, Nat.mod_eq_of_lt (by omega)]
      split at hd
      · omega
      · omega
    · rw [Nat.mod_eq_of_lt (by omega : r.tail + 1 < r.nr)] at hroom ⊢
      split at hd
      · rw [show r.tail + 1 + r.nr - r.head = r.tail + 1 - r.head + r.nr by omega, Nat.add_mod_right,
          Nat.mod_eq_of_lt (by omega)]
        omega
      · rw [show r.tail + 1 + r.nr - r.head = r.nr - r.head + (r.tail + 1) by omega, Nat.mod_eq_of_lt (by omega)]
        omega
  -- the cell behind the unread ones is that of the tail
  have hlast : (r.head + n) % r.nr = r.tail := by
    split at hd
    · rw [show r.head + n = r.tail by omega]
      exact Nat.mod_eq_of_lt h₂
    · rw [show r.head + n = r.tail + r.nr by omega, Nat.add_mod_right]
      exact Nat.mod_eq_of_lt h₂
  have hne : ∀ i < n, (r.head + i) % r.nr ≠ r.tail := by
    intro i hi
    by_cases hw : r.head + i < r.nr
    · rw [Nat.mod_eq_of_lt hw]
      split at hd
      · omega
      · omega
    · rw [show r.head + i = r.head + i - r.nr + r.nr by omega, Nat.add_mod_right, Nat.mod_eq_of_lt (by split at hd <;> omega)]
      split at hd
      · omega
      · omega
  unfold unread
  simp only [hn', hn]
  rw [List.range_succ, List.map_append, List.map_cons, List.map_nil, hlast, Function.update_self]
  congr 1
  refine List.map_congr_left fun i hi => ?_
  rw [Function.update_of_ne (hne i (List.mem_range.mp hi))]

theorem unread_take {n : ℕ} (hn : n ≤ r.unread.length) : (r.take n).unread = r.unread.drop n := by
  rw [unread_length] at hn
  have h₁ := r.head_lt
  have h₂ := r.tail_lt
  have hd := r.distance
  unfold unread
  simp only [take]
  generalize hm : (r.tail + r.nr - r.head) % r.nr = m at hd hn
  have hm' : (r.tail + r.nr - (r.head + n) % r.nr) % r.nr = m - n := by
    by_cases hw : r.head + n < r.nr
    · rw [Nat.mod_eq_of_lt hw]
      split at hd
      · rw [show r.tail + r.nr - (r.head + n) = m - n + r.nr by omega, Nat.add_mod_right, Nat.mod_eq_of_lt (by omega)]
      · rw [show r.tail + r.nr - (r.head + n) = m - n by omega, Nat.mod_eq_of_lt (by omega)]
    · have hhead : (r.head + n) % r.nr = r.head + n - r.nr := by
        rw [Nat.mod_eq_sub_mod (by omega)]
        exact Nat.mod_eq_of_lt (by split at hd <;> omega)
      rw [hhead]
      split at hd
      · omega
      · rw [show r.tail + r.nr - (r.head + n - r.nr) = m - n + r.nr by omega, Nat.add_mod_right,
          Nat.mod_eq_of_lt (by omega)]
  rw [hm', ← List.map_drop]
  rw [show (List.range m).drop n = (List.range (m - n)).map (n + ·) by
    rw [List.range_eq_range', List.drop_range', List.range_eq_range', List.range'_eq_map_range, List.range_eq_range']
    simp]
  rw [List.map_map]
  refine List.map_congr_left fun i _ => ?_
  rw [Function.comp_apply, Nat.mod_add_mod, Nat.add_assoc]

/-- The cells from the head on, in the two stretches the loop reads. -/
theorem unread_eq (r : Ring) (h : r.head ≠ r.tail) : r.unread =
    if r.head < r.tail then (List.range (r.tail - r.head)).map fun i => r.cells (r.head + i)
    else ((List.range (r.nr - r.head)).map fun i => r.cells (r.head + i)) ++ (List.range r.tail).map r.cells := by
  have h₁ := r.head_lt
  have h₂ := r.tail_lt
  unfold unread
  rw [r.distance]
  by_cases hlt : r.head < r.tail
  · rw [if_pos hlt, if_pos hlt.le]
    refine List.map_congr_left fun i hi => ?_
    rw [Nat.mod_eq_of_lt (by have := List.mem_range.mp hi; omega)]
  · rw [if_neg hlt, if_neg (by omega), List.range_add, List.map_append, List.map_map]
    congr 1
    · refine List.map_congr_left fun i hi => ?_
      rw [Nat.mod_eq_of_lt (by have := List.mem_range.mp hi; omega)]
    · refine List.map_congr_left fun i hi => ?_
      rw [Function.comp_apply, show r.head + (r.nr - r.head + i) = i + r.nr by omega, Nat.add_mod_right,
        Nat.mod_eq_of_lt (by have := List.mem_range.mp hi; omega)]

end Ring

end Aio

namespace Loop

open Aio Epoll

variable {U T : Type} [DecidableEq U] {l l' : Loop U T Aio.Kernel} {fd : ℕ}

theorem linuxaioParseEvents_eq (cells : ℕ → Completion) (ev nr : ℕ) (l : Loop U T Aio.Kernel) :
    linuxaioParseEvents cells ev nr l =
      ((List.range nr).map fun i => cells (ev + i)).foldl linuxaioParseEvent l := by
  induction nr generalizing ev l with
  | zero => rfl
  | succ nr ih =>
    rw [linuxaioParseEvents, ih, List.range_succ_eq_map, List.map_cons, List.foldl_cons, List.map_map]
    congr 1
    refine List.map_congr_left fun i _ => ?_
    rw [Function.comp_apply, Nat.succ_eq_add_one, Nat.add_assoc, Nat.add_comm 1]

/-- The ring with all read. -/
def readAll (l : Loop U T Aio.Kernel) : Loop U T Aio.Kernel :=
  { l with kernel := { l.kernel with ring := { l.kernel.ring with
      head := l.kernel.ring.tail, head_lt := l.kernel.ring.tail_lt } } }

/-- Reading the ring parses each completion in it once, oldest first. -/
theorem linuxaioGetEventsFromRing_eq (l : Loop U T Aio.Kernel) (h : l.kernel.ring.head ≠ l.kernel.ring.tail) :
    l.linuxaioGetEventsFromRing = ((l.kernel.ring.unread.foldl linuxaioParseEvent l).readAll, true) := by
  have hparse : (if l.kernel.ring.head < l.kernel.ring.tail then
        linuxaioParseEvents l.kernel.ring.cells l.kernel.ring.head (l.kernel.ring.tail - l.kernel.ring.head) l
      else linuxaioParseEvents l.kernel.ring.cells 0 l.kernel.ring.tail
        (linuxaioParseEvents l.kernel.ring.cells l.kernel.ring.head (l.kernel.ring.nr - l.kernel.ring.head) l)) =
      l.kernel.ring.unread.foldl linuxaioParseEvent l := by
    rw [l.kernel.ring.unread_eq h]
    split
    · exact linuxaioParseEvents_eq ..
    · rw [linuxaioParseEvents_eq, linuxaioParseEvents_eq, List.foldl_append]
      simp only [Nat.zero_add]
  unfold linuxaioGetEventsFromRing
  dsimp only
  rw [if_neg h]
  exact congrArg (fun l => (readAll l, true)) hparse

end Loop

end Qev
