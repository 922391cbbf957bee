/-
# What a loop opens when it is made

What the variables of the backends name is what the loop holds: `iouring_init` and the other `init` functions
either succeed and hold what they name, or leave nothing behind, and so does `loop_init`.
-/
import Qev.Loop.Owner
import Mathlib.Tactic.Abel

namespace Qev
namespace Owner

variable {s : Owner} {lost n : Multiset Res}

/-! ### What a variable names -/

def mapOf (addr : ℤ) : Multiset Res := if addr ≠ -1 then {.map addr.toNat} else 0

def blockOf : Option ℕ → Multiset Res
  | none => 0
  | some p => {.block p}

theorem fdOf_of_nonneg {fd : ℤ} (h : 0 ≤ fd) : fdOf fd = {.fd fd.toNat} := if_pos h

theorem fdOf_of_neg {fd : ℤ} (h : fd < 0) : fdOf fd = 0 := if_neg (not_le.mpr h)

theorem fdOf_natCast (fd : ℕ) : fdOf (fd : ℤ) = {.fd fd} := fdOf_of_nonneg (Int.natCast_nonneg fd)

theorem mapOf_of_ne {addr : ℤ} (h : addr ≠ -1) : mapOf addr = {.map addr.toNat} := if_pos h

theorem returned_cases (k : Option ℕ) :
    (k = none ∧ returned k = -1) ∨ ∃ fd : ℕ, k = some fd ∧ returned k = fd := by
  cases k with
  | none => exact .inl ⟨rfl, rfl⟩
  | some fd => exact .inr ⟨fd, rfl, rfl⟩

/-! ### The calls -/

theorem accounts_hold (h : s.ledger.Accounts lost n) (r : Res) :
    (s.hold r).ledger.Accounts lost ({r} + n) := by
  rw [Multiset.singleton_add]
  exact h.hold r

theorem accounts_release {r : Res} (h : s.ledger.Accounts lost ({r} + n)) :
    (s.release r).ledger.Accounts lost n := by
  rw [Multiset.singleton_add] at h
  exact h.release

theorem accounts_opened (h : s.ledger.Accounts lost n) (k : Option ℕ) :
    (s.opened .fd k).ledger.Accounts lost (fdOf (returned k) + n) := by
  cases k with
  | none => exact h.congr (zero_add n).symm
  | some fd =>
    have hheld := accounts_hold h (.fd fd)
    rw [← fdOf_natCast] at hheld
    exact hheld

theorem accounts_mapped (h : s.ledger.Accounts lost n) (k : Option ℕ) :
    (s.opened .map k).ledger.Accounts lost (mapOf (returned k) + n) := by
  cases k with
  | none => exact h.congr (zero_add n).symm
  | some addr =>
    have hne : (addr : ℤ) ≠ -1 := by omega
    have hheld := accounts_hold h (.map addr)
    change Ledger.Accounts lost (mapOf (addr : ℤ) + n) _
    rw [mapOf_of_ne hne]
    exact hheld

theorem accounts_close {fd : ℤ} (h : s.ledger.Accounts lost (fdOf fd + n)) :
    (s.close fd).ledger.Accounts lost n := by
  unfold close
  by_cases hfd : 0 ≤ fd
  · rw [fdOf_of_nonneg hfd] at h
    simp only [hfd, if_true]
    exact accounts_release h
  · rw [fdOf_of_neg (not_le.mp hfd), zero_add] at h
    simp only [hfd, if_false]
    exact h

theorem accounts_unmap {addr : ℤ} (h : s.ledger.Accounts lost (mapOf addr + n)) :
    (s.unmap addr).ledger.Accounts lost n := by
  unfold unmap
  by_cases haddr : addr ≠ -1
  · rw [mapOf_of_ne haddr] at h
    simp only [haddr, if_true, ne_eq, not_false_eq_true]
    exact accounts_release h
  · unfold mapOf at h
    rw [if_neg haddr, zero_add] at h
    simp only [haddr, if_false]
    exact h

theorem accounts_evFree {p : Option ℕ} (h : s.ledger.Accounts lost (blockOf p + n)) :
    (s.evFree p).ledger.Accounts lost n := by
  cases p with
  | none => exact h.congr (zero_add n)
  | some p => exact accounts_release h

theorem accounts_arrayFree {a : Arr} (h : s.ledger.Accounts lost (blockOf (s.base a) + n)) :
    (s.arrayFree a).ledger.Accounts lost n :=
  accounts_evFree h

theorem accounts_grow {a : Arr} (h : s.ledger.Accounts lost (blockOf (s.base a) + n)) (p : ℕ) :
    (s.grow a p).ledger.Accounts lost ({.block p} + n) :=
  accounts_hold (accounts_evFree h) (.block p)

/-! ### The io_uring -/

def maps (s : Owner) : Multiset Res := mapOf s.iouring.sqRing + mapOf s.iouring.cqRing + mapOf s.iouring.sqes

/-- What an io_uring names. -/
def ring (s : Owner) : Multiset Res := s.maps + fdOf s.iouring.fd + fdOf s.iouring.tfd

/-- Only the variables of the io_uring differ. -/
def Ringed (s t : Owner) : Prop := t = { s with iouring := t.iouring, ledger := t.ledger }

theorem Ringed.trans {t u : Owner} (hst : Ringed s t) (htu : Ringed t u) : Ringed s u := by
  unfold Ringed at hst htu ⊢
  calc u
    _ = { t with iouring := u.iouring, ledger := u.ledger } := htu
    _ = { s with iouring := u.iouring, ledger := u.ledger } := by rw [hst]

theorem ringed_openRing (k : Option ℕ) : Ringed s (s.openRing k) := rfl

theorem ringed_mapRings (k : UringSetup) : Ringed s (s.mapRings k) := rfl

theorem ringed_unmapRings : Ringed s s.unmapRings := rfl

theorem ringed_openTfd (k : Option ℕ) : Ringed s (s.openTfd k) := rfl

theorem ringed_closeRing : Ringed s s.closeRing := rfl

theorem ringed_iouringDestroy : Ringed s s.iouringDestroy := ringed_unmapRings.trans ringed_closeRing

theorem accounts_openRing (h : s.ledger.Accounts lost n) (k : Option ℕ) :
    (s.openRing k).ledger.Accounts lost (fdOf (s.openRing k).iouring.fd + n) :=
  accounts_opened h k

theorem accounts_mapRings (h : s.ledger.Accounts lost n) (k : UringSetup) :
    (s.mapRings k).ledger.Accounts lost ((s.mapRings k).maps + n) := by
  refine (accounts_mapped (accounts_mapped (accounts_mapped h k.sqRing) k.cqRing) k.sqes).congr ?_
  change _ = mapOf (returned k.sqRing) + mapOf (returned k.cqRing) + mapOf (returned k.sqes) + n
  abel

theorem accounts_unmapRings (h : s.ledger.Accounts lost (s.maps + n)) : s.unmapRings.ledger.Accounts lost n := by
  apply accounts_unmap
  apply accounts_unmap
  apply accounts_unmap
  refine h.congr ?_
  change mapOf s.iouring.sqRing + mapOf s.iouring.cqRing + mapOf s.iouring.sqes + n =
    mapOf s.iouring.sqRing + (mapOf s.iouring.cqRing + (mapOf s.iouring.sqes + n))
  abel

/-- How `iouring_init` ends: the ring is held, or nothing is. -/
structure Ended (lost n : Multiset Res) (s : Owner) (r : Owner × Bool) : Prop where
  made : r.2 = true → ∃ t, Ringed s t ∧ r.1 = { t with backendFd := t.iouring.fd } ∧
    t.ledger.Accounts lost (t.ring + n)
  failed : r.2 = false → Ringed s r.1 ∧ r.1.ledger.Accounts lost n

theorem Ended.of_ringed {t : Owner} {r : Owner × Bool} (h : Ended lost n t r) (hst : Ringed s t) :
    Ended lost n s r where
  made hr := by
    obtain ⟨u, htu, heq, haccounts⟩ := h.made hr
    exact ⟨u, hst.trans htu, heq, haccounts⟩
  failed hr := ⟨hst.trans (h.failed hr).1, (h.failed hr).2⟩

theorem ended_giveUp (h : s.ledger.Accounts lost (fdOf s.iouring.fd + n)) : Ended lost n s s.iouringGiveUp where
  made hr := absurd hr Bool.false_ne_true
  failed _ := ⟨rfl, accounts_close h⟩

theorem ended_timer (h : s.ledger.Accounts lost (s.maps + (fdOf s.iouring.fd + n))) (k : UringSetup) :
    Ended lost n s (s.iouringTimer k) := by
  have hheld := accounts_opened h k.tfd
  unfold iouringTimer
  simp only
  split
  case isTrue hneg =>
    have hnone : fdOf (returned k.tfd) = 0 := fdOf_of_neg hneg
    rw [hnone, zero_add] at hheld
    exact (ended_giveUp (accounts_unmapRings (s := s.openTfd k.tfd) hheld)).of_ringed
      ((ringed_openTfd k.tfd).trans ringed_unmapRings)
  case isFalse =>
    refine ⟨fun _ => ⟨_, ringed_openTfd k.tfd, rfl, hheld.congr ?_⟩, fun hr => absurd hr.symm Bool.false_ne_true⟩
    change _ = s.maps + fdOf s.iouring.fd + fdOf (returned k.tfd) + n
    abel

theorem ended_map (h : s.ledger.Accounts lost (fdOf s.iouring.fd + n)) (k : UringSetup) :
    Ended lost n s (s.iouringMap k) := by
  have hheld := accounts_mapRings h k
  unfold iouringMap
  simp only
  split
  · exact (ended_giveUp (accounts_unmapRings hheld)).of_ringed ((ringed_mapRings k).trans ringed_unmapRings)
  · exact (ended_timer hheld k).of_ringed (ringed_mapRings k)

/-- However `iouring_init` fails, it leaves nothing behind. -/
theorem ended_iouringInit (h : s.ledger.Accounts lost n) (k : UringSetup) : Ended lost n s (s.iouringInit k) := by
  have hheld := accounts_openRing h k.setup
  unfold iouringInit
  simp only
  split
  case isTrue hneg =>
    rw [fdOf_of_neg hneg, zero_add] at hheld
    exact ⟨fun hr => absurd hr Bool.false_ne_true, fun _ => ⟨ringed_openRing k.setup, hheld⟩⟩
  case isFalse =>
    split
    · exact (ended_giveUp hheld).of_ringed (ringed_openRing k.setup)
    · split
      · exact (ended_map hheld k).of_ringed (ringed_openRing k.setup)
      · exact (ended_giveUp hheld).of_ringed (ringed_openRing k.setup)

theorem accounts_iouringDestroy (h : s.ledger.Accounts lost (s.ring + n)) :
    s.iouringDestroy.ledger.Accounts lost n := by
  apply accounts_close
  apply accounts_close
  apply accounts_unmapRings
  refine h.congr ?_
  unfold ring
  change _ = s.maps + (fdOf s.iouring.fd + (fdOf s.iouring.tfd + n))
  abel

/-- However often `iouring_fork` tries, it holds one ring in the end. -/
theorem accounts_iouringRetry (ks : List UringSetup) {r : Owner} (h : s.ledger.Accounts lost n)
    (hr : iouringRetry ks s = some r) :
    ∃ t, Ringed s t ∧ r = { t with backendFd := t.iouring.fd } ∧ t.ledger.Accounts lost (t.ring + n) := by
  induction ks generalizing s with
  | nil => cases hr
  | cons k ks ih =>
    have hended := ended_iouringInit h k
    unfold iouringRetry at hr
    split at hr
    case isTrue hmade =>
      cases hr
      exact hended.made hmade
    case isFalse hfailed =>
      obtain ⟨hringed, haccounts⟩ := hended.failed (Bool.eq_false_iff.mpr hfailed)
      obtain ⟨t, hst, heq, hheld⟩ := ih haccounts hr
      exact ⟨t, hringed.trans hst, heq, hheld⟩

theorem accounts_iouringFork (ks : List UringSetup) {r : Owner} (h : s.ledger.Accounts lost (s.ring + n))
    (hr : s.iouringFork ks = some r) :
    ∃ t, Ringed s t ∧ r = { t with backendFd := t.iouring.fd } ∧ t.ledger.Accounts lost (t.ring + n) := by
  obtain ⟨t, hst, heq, hheld⟩ := accounts_iouringRetry ks (accounts_iouringDestroy h) hr
  exact ⟨t, ringed_iouringDestroy.trans hst, heq, hheld⟩

/-! ### The backends -/

def epolled (s : Owner) : Multiset Res :=
  fdOf s.backendFd + blockOf (s.base .epollEvents) + blockOf (s.base .epollEperms)

def iocbBlocks (s : Owner) : Multiset Res := (s.iocbs.map Res.block : List Res)

/-- What the aio names besides its epoll. -/
def aio (s : Owner) : Multiset Res :=
  {.ctx s.linuxaioCtx} + s.iocbBlocks + blockOf (s.base .linuxaioIocbps) + blockOf (s.base .linuxaioSubmits)

/-- What a backend names. -/
def polled (s : Owner) : Backend → Multiset Res
  | .port => fdOf s.backendFd + blockOf (s.base .portEvents)
  | .kqueue => fdOf s.backendFd + blockOf (s.base .kqueueEvents) + blockOf (s.base .kqueueChanges)
  | .iouring => s.ring
  | .linuxaio => s.epolled + s.aio
  | .epoll => s.epolled
  | .poll => blockOf (s.base .pollidxs) + blockOf (s.base .polls)
  | .select => blockOf (s.base .vecRi) + blockOf (s.base .vecRo) + blockOf (s.base .vecWi) + blockOf (s.base .vecWo)

/-- What `backend_fd` is under a backend. -/
def Polls (s : Owner) : Backend → Prop
  | .poll | .select => s.backendFd = -1
  | .iouring => True
  | _ => 0 ≤ s.backendFd

/-- Only the variables that the backends have differ. -/
def Backed (s t : Owner) : Prop :=
  t = { s with
    backendFd := t.backendFd, iouring := t.iouring, linuxaioCtx := t.linuxaioCtx, kqueueFdPid := t.kqueueFdPid
    base := t.base, iocbs := t.iocbs, ledger := t.ledger } ∧
    ∀ a ∈ loopArrays, t.base a = s.base a

theorem Backed.trans {t u : Owner} (hst : Backed s t) (htu : Backed t u) : Backed s u := by
  refine ⟨?_, fun a ha => (htu.2 a ha).trans (hst.2 a ha)⟩
  calc u
    _ = { t with
          backendFd := u.backendFd, iouring := u.iouring, linuxaioCtx := u.linuxaioCtx, kqueueFdPid := u.kqueueFdPid
          base := u.base, iocbs := u.iocbs, ledger := u.ledger } := htu.1
    _ = { s with
          backendFd := u.backendFd, iouring := u.iouring, linuxaioCtx := u.linuxaioCtx, kqueueFdPid := u.kqueueFdPid
          base := u.base, iocbs := u.iocbs, ledger := u.ledger } := by rw [hst.1]

theorem Backed.same {t : Owner} (h : Backed s t) :
    t.loop = s.loop ∧ t.pid = s.pid ∧ t.abandoned = s.abandoned ∧ t.backend = s.backend ∧ t.killed = s.killed := by
  rw [h.1]
  exact ⟨rfl, rfl, rfl, rfl, rfl⟩

/-- How the `init` of a backend ends. -/
structure Inits (lost n : Multiset Res) (b : Backend) (s : Owner) (r : Owner × Bool) : Prop where
  backed : Backed s r.1
  made : r.2 = true → r.1.ledger.Accounts lost (r.1.polled b + n) ∧ r.1.Polls b ∧
    (b = .kqueue → r.1.kqueueFdPid = r.1.pid)
  failed : r.2 = false → r.1.ledger.Accounts lost n ∧ r.1.backendFd = s.backendFd ∧
    (s.base .epollEperms = none → r.1.base .epollEperms = none)

theorem update_backend {f : Arr → Option ℕ} {a b : Arr} (ha : a ∈ loopArrays) (hb : b ∉ loopArrays) (p : Option ℕ) :
    Function.update f b p a = f a := by
  apply Function.update_of_ne
  rintro rfl
  exact hb ha

theorem inits_port (h : s.ledger.Accounts lost n) (k : Option ℕ) (events : ℕ) :
    Inits lost n .port s (s.portInit k events) := by
  cases k with
  | none => exact ⟨⟨rfl, fun _ _ => rfl⟩, fun hr => absurd hr Bool.false_ne_true, fun _ => ⟨h, rfl, id⟩⟩
  | some fd =>
    refine ⟨⟨rfl, fun a ha => update_backend ha (by decide) _⟩,
      fun _ => ⟨?_, Int.natCast_nonneg fd, fun he => by cases he⟩, fun hr => absurd hr.symm Bool.false_ne_true⟩
    refine (accounts_hold (s := s.hold (.fd fd)) (accounts_hold h (.fd fd)) (.block events)).congr ?_
    change _ = fdOf (fd : ℤ) + blockOf (some events) + n
    rw [fdOf_natCast]
    change {Res.block events} + ({Res.fd fd} + n) = {Res.fd fd} + {Res.block events} + n
    abel

theorem inits_kqueue (h : s.ledger.Accounts lost n) (k : Option ℕ) (events : ℕ) :
    Inits lost n .kqueue s (s.kqueueInit k events) := by
  cases k with
  | none => exact ⟨⟨rfl, fun _ _ => rfl⟩, fun hr => absurd hr Bool.false_ne_true, fun _ => ⟨h, rfl, id⟩⟩
  | some fd =>
    refine ⟨⟨rfl, fun a ha => (update_backend ha (by decide) _).trans (update_backend ha (by decide) _)⟩,
      fun _ => ⟨?_, Int.natCast_nonneg fd, fun _ => rfl⟩, fun hr => absurd hr.symm Bool.false_ne_true⟩
    refine (accounts_hold (s := s.hold (.fd fd)) (accounts_hold h (.fd fd)) (.block events)).congr ?_
    change _ = fdOf (fd : ℤ) + blockOf (some events) + 0 + n
    rw [fdOf_natCast]
    change {Res.block events} + ({Res.fd fd} + n) = {Res.fd fd} + {Res.block events} + 0 + n
    abel

theorem Ended.inits {r : Owner × Bool} (h : Ended lost n s r) : Inits lost n .iouring s r := by
  obtain ⟨t, made⟩ := r
  cases made with
  | false =>
    obtain ⟨hringed, haccounts⟩ := h.failed rfl
    change t = { s with iouring := t.iouring, ledger := t.ledger } at hringed
    rw [hringed]
    exact ⟨⟨rfl, fun _ _ => rfl⟩, fun hr => absurd hr Bool.false_ne_true, fun _ => ⟨haccounts, rfl, id⟩⟩
  | true =>
    obtain ⟨u, hringed, rfl, haccounts⟩ := h.made rfl
    change u = { s with iouring := u.iouring, ledger := u.ledger } at hringed
    rw [hringed]
    exact ⟨⟨rfl, fun _ _ => rfl⟩, fun _ => ⟨haccounts, trivial, fun he => by cases he⟩,
      fun hr => absurd hr.symm Bool.false_ne_true⟩

theorem accounts_epollDestroy (h : s.ledger.Accounts lost
    (blockOf (s.base .epollEvents) + blockOf (s.base .epollEperms) + n)) :
    s.epollDestroy.ledger.Accounts lost n :=
  accounts_arrayFree (accounts_evFree (h.congr (add_assoc _ _ _)))

theorem backed_epollDestroy (s : Owner) : Backed s s.epollDestroy :=
  ⟨rfl, fun _ ha => update_backend ha (by decide) _⟩

theorem accounts_closeBackend (h : s.ledger.Accounts lost (fdOf s.backendFd + n)) :
    s.closeBackend.ledger.Accounts lost n :=
  accounts_close h

theorem backed_closeBackend (s : Owner) : Backed s s.closeBackend := ⟨rfl, fun _ _ => rfl⟩

theorem closeBackend_backendFd (s : Owner) : s.closeBackend.backendFd = -1 := rfl

theorem closeBackend_base (s : Owner) : s.closeBackend.base = s.base := rfl

theorem epollDestroy_eperms (s : Owner) : s.epollDestroy.base .epollEperms = none := by
  unfold epollDestroy arrayFree
  simp only [Function.update_self]

theorem backed_linuxaioReset (s : Owner) : Backed s s.linuxaioReset :=
  ⟨rfl, fun _ ha => (update_backend ha (by decide) _).trans (update_backend ha (by decide) _)⟩

theorem linuxaioReset_polled (s : Owner) : s.linuxaioReset.polled .linuxaio = s.epolled + {.ctx s.linuxaioCtx} := by
  change s.epolled + ({.ctx s.linuxaioCtx} + 0 + 0 + 0) = _
  simp only [add_zero]

theorem backed_linuxaioIoSetup (s : Owner) (k : Option ℕ) : Backed s (s.linuxaioIoSetup k) := ⟨rfl, fun _ _ => rfl⟩

theorem inits_epoll (h : s.ledger.Accounts lost n) (heperms : s.base .epollEperms = none) (hfd : s.backendFd = -1)
    (k : Option ℕ) (events : ℕ) : Inits lost n .epoll s (s.epollInit k events) := by
  have hheld := accounts_opened h k
  unfold epollInit
  simp only
  rcases returned_cases k with ⟨rfl, hret⟩ | ⟨fd, rfl, hret⟩
  · rw [if_pos (show (s.openEpoll none).backendFd = -1 from rfl)]
    exact ⟨⟨rfl, fun _ _ => rfl⟩, fun hr => absurd hr Bool.false_ne_true, fun _ => ⟨h, hfd.symm, id⟩⟩
  · have hne : ¬(s.openEpoll (some fd)).backendFd = -1 := by
      change ¬(fd : ℤ) = -1
      omega
    rw [if_neg hne]
    refine ⟨⟨rfl, fun a ha => update_backend ha (by decide) _⟩,
      fun _ => ⟨?_, Int.natCast_nonneg fd, fun he => by cases he⟩, fun hr => absurd hr.symm Bool.false_ne_true⟩
    refine (accounts_hold (s := s.openEpoll (some fd)) hheld (.block events)).congr ?_
    change _ = fdOf (fd : ℤ) + {.block events} + blockOf (s.base .epollEperms) + n
    rw [heperms]
    change {.block events} + (fdOf (fd : ℤ) + n) = fdOf (fd : ℤ) + {.block events} + 0 + n
    abel

/-- `linuxaio_init` closes its epoll when it gets no context. -/
theorem inits_linuxaio (h : s.ledger.Accounts lost n) (heperms : s.base .epollEperms = none) (hfd : s.backendFd = -1)
    (k : AioSetup) : Inits lost n .linuxaio s (s.linuxaioInit k) := by
  have hepoll := inits_epoll h heperms hfd k.epoll k.events
  unfold linuxaioInit
  simp only
  split
  case isTrue =>
    exact ⟨⟨rfl, fun _ _ => rfl⟩, fun hr => absurd hr Bool.false_ne_true, fun _ => ⟨h, rfl, id⟩⟩
  case isFalse =>
    generalize s.epollInit k.epoll k.events = r at hepoll ⊢
    obtain ⟨t, made⟩ := r
    cases made with
    | false =>
      exact ⟨hepoll.backed, fun hr => absurd hr Bool.false_ne_true, fun _ => hepoll.failed rfl⟩
    | true =>
      obtain ⟨haccounts, hpolls, -⟩ := hepoll.made rfl
      cases hk : k.ctx with
      | none =>
        have hne : (t.linuxaioIoSetup none).backendFd ≠ -1 := by
          change 0 ≤ t.backendFd at hpolls
          change t.backendFd ≠ -1
          omega
        simp only [Bool.not_true, Bool.false_eq_true, if_false, if_true, hne, ne_eq, not_false_eq_true]
        have hbacked : Backed t (t.linuxaioIoSetup none).epollDestroy.closeBackend :=
          (backed_linuxaioIoSetup t none).trans ((backed_epollDestroy _).trans (backed_closeBackend _))
        refine ⟨hepoll.backed.trans hbacked, fun hr => absurd hr Bool.false_ne_true,
          fun _ => ⟨?_, (closeBackend_backendFd _).trans hfd.symm, fun _ => ?_⟩⟩
        case refine_2 => rw [closeBackend_base, epollDestroy_eperms]
        apply accounts_closeBackend
        apply accounts_epollDestroy (s := t.linuxaioIoSetup none)
        refine haccounts.congr ?_
        change fdOf t.backendFd + blockOf (t.base .epollEvents) + blockOf (t.base .epollEperms) + n =
          blockOf (t.base .epollEvents) + blockOf (t.base .epollEperms) + (fdOf t.backendFd + n)
        abel
      | some c =>
        simp only [Bool.not_true, Bool.false_eq_true, if_false, reduceCtorEq]
        refine ⟨hepoll.backed.trans ((backed_linuxaioIoSetup t (some c)).trans (backed_linuxaioReset _)),
          fun _ => ⟨?_, hpolls, fun he => by cases he⟩, fun hr => absurd hr.symm Bool.false_ne_true⟩
        rw [linuxaioReset_polled]
        refine (accounts_hold haccounts (.ctx c)).congr ?_
        change {Res.ctx c} + (t.epolled + n) = t.epolled + {Res.ctx c} + n
        abel

theorem inits_poll (h : s.ledger.Accounts lost n) (hfd : s.backendFd = -1) :
    Inits lost n .poll s s.pollInit :=
  ⟨⟨rfl, fun a ha => (update_backend ha (by decide) _).trans (update_backend ha (by decide) _)⟩,
    fun _ => ⟨h.congr (zero_add n).symm, hfd, fun he => by cases he⟩, fun hr => absurd hr.symm Bool.false_ne_true⟩

theorem inits_select (h : s.ledger.Accounts lost n) (hfd : s.backendFd = -1) :
    Inits lost n .select s s.selectInit := by
  refine ⟨⟨rfl, fun a ha => ?_⟩, fun _ => ⟨h.congr (zero_add n).symm, hfd, fun he => by cases he⟩,
    fun hr => absurd hr.symm Bool.false_ne_true⟩
  exact (update_backend ha (by decide) _).trans ((update_backend ha (by decide) _).trans
    ((update_backend ha (by decide) _).trans (update_backend ha (by decide) _)))

/-! ### `loop_init` -/

/-- A loop without descriptors and arrays but its backend's. -/
structure Bare (s : Owner) : Prop where
  evpipe0 : s.evpipe0 = -1
  evpipe1 : s.evpipe1 = -1
  onces : s.onces = []
  sigfd : s.sigfd < 0
  timerfd : s.timerfd < 0
  fsFd : s.fsFd < 0
  base : ∀ a ∈ loopArrays, s.base a = none

theorem Bare.backed {t : Owner} (h : Bare s) (hst : Backed s t) : Bare t := by
  obtain ⟨heq, hbase⟩ := hst
  rw [heq]
  exact ⟨h.evpipe0, h.evpipe1, h.onces, h.sigfd, h.timerfd, h.fsFd, fun a ha => (hbase a ha).trans (h.base a ha)⟩

/-- While `loop_init` tries the backends: none succeeded and none left anything behind, or one did. -/
structure Trying (lost n : Multiset Res) (f : Flags) (s₀ s : Owner) : Prop where
  bare : Bare s
  loop : s.loop = s₀.loop
  pid : s.pid = s₀.pid
  abandoned : s.abandoned = s₀.abandoned
  killed : s.killed = s₀.killed
  untried : s.backend = none → s.ledger.Accounts lost n ∧ s.backendFd = -1 ∧ s.base .epollEperms = none
  made : ∀ b, s.backend = some b → s.ledger.Accounts lost (s.polled b + n) ∧ s.Polls b ∧
    (b = .kqueue → s.kqueueFdPid = s.pid) ∧ f.backends b = true

theorem polled_backend (s : Owner) (b : Backend) (c : Option Backend) :
    ({ s with backend := c } : Owner).polled b = s.polled b := by
  cases b <;> rfl

theorem Trying.tryInit {f : Flags} {s₀ : Owner} (h : Trying lost n f s₀ s) (b : Backend)
    (init : Owner → Owner × Bool)
    (hinit : ∀ t : Owner, t.ledger.Accounts lost n → t.base .epollEperms = none → t.backendFd = -1 →
      Inits lost n b t (init t)) :
    Trying lost n f s₀ (s.tryInit f b init) := by
  unfold Owner.tryInit
  split
  case isFalse => exact h
  case isTrue hnone =>
    obtain ⟨haccounts, hfd, heperms⟩ := h.untried hnone.1
    have hinits := hinit s haccounts heperms hfd
    generalize init s = r at hinits ⊢
    obtain ⟨t, made⟩ := r
    have hbare := h.bare.backed hinits.backed
    obtain ⟨hl, hp, hab, hbackend, hk⟩ := hinits.backed.same
    have hloop : t.loop = s₀.loop := hl.trans h.loop
    have hpid : t.pid = s₀.pid := hp.trans h.pid
    have habandoned : t.abandoned = s₀.abandoned := hab.trans h.abandoned
    have hkilled : t.killed = s₀.killed := hk.trans h.killed
    cases made with
    | false =>
      obtain ⟨hheld, hfd', heperms'⟩ := hinits.failed rfl
      refine ⟨hbare, hloop, hpid, habandoned, hkilled, fun _ => ⟨hheld, hfd'.trans hfd, heperms' heperms⟩,
        fun b' hb => ?_⟩
      exact absurd ((hbackend.trans hnone.1).symm.trans hb) (Option.some_ne_none b').symm
    | true =>
      obtain ⟨hheld, hpolls, hkqueue⟩ := hinits.made rfl
      refine ⟨⟨hbare.evpipe0, hbare.evpipe1, hbare.onces, hbare.sigfd, hbare.timerfd, hbare.fsFd, hbare.base⟩, hloop,
        hpid, habandoned, hkilled, fun hb => absurd hb (Option.some_ne_none b), fun b' hb => ?_⟩
      cases hb
      refine ⟨hheld.congr ?_, ?_, hkqueue, hnone.2⟩
      · exact congrArg (· + n) (polled_backend t b (some b)).symm
      · cases b <;> exact hpolls

/-- `loop_init`: there is a backend, or nothing that was not there before. -/
theorem trying_loopInit (h : s.ledger.Accounts lost n) (hnone : s.backend = none)
    (hbase : ∀ a, s.base a = none) (honces : s.onces = []) (f : Flags) (k : InitAnswers) : Trying lost n f s (s.loopInit f k) := by
  have hpreset : Trying lost n f s (s.preset f) := by
    refine ⟨⟨rfl, rfl, honces, ?_, ?_, ?_, fun a _ => hbase a⟩, rfl, rfl, rfl, rfl, fun _ => ⟨h, rfl, hbase _⟩,
      fun b hb => ?_⟩
    · change (if f.signalfd = true then (-2 : ℤ) else -1) < 0
      split <;> decide
    · change (if f.notimerfd = true then (-1 : ℤ) else -2) < 0
      split <;> decide
    · change (if f.noinotify = true then (-1 : ℤ) else -2) < 0
      split <;> decide
    · exact absurd (hnone.symm.trans hb) (Option.some_ne_none b).symm
  have hport := hpreset.tryInit .port (·.portInit k.port k.events) fun _ ht _ _ => inits_port ht _ _
  have hkqueue := hport.tryInit .kqueue (·.kqueueInit k.kqueue k.events) fun _ ht _ _ => inits_kqueue ht _ _
  have huring := hkqueue.tryInit .iouring (·.iouringInit k.uring) fun _ ht _ _ => (ended_iouringInit ht _).inits
  have haio := huring.tryInit .linuxaio (·.linuxaioInit k.aio) fun _ ht he hfd => inits_linuxaio ht he hfd _
  have hepoll := haio.tryInit .epoll (·.epollInit k.epoll k.events) fun _ ht he hfd => inits_epoll ht he hfd _ _
  have hpoll := hepoll.tryInit .poll pollInit fun _ ht _ hfd => inits_poll ht hfd
  have hselect := hpoll.tryInit .select selectInit fun _ ht _ hfd => inits_select ht hfd
  unfold loopInit
  rw [if_neg (not_not.mpr hnone)]
  simp only
  generalize Owner.tryInit _ f .select selectInit = t at hselect ⊢
  refine ⟨⟨hselect.bare.evpipe0, hselect.bare.evpipe1, hselect.bare.onces, hselect.bare.sigfd, hselect.bare.timerfd,
    hselect.bare.fsFd, hselect.bare.base⟩, hselect.loop, hselect.pid, hselect.abandoned, hselect.killed,
    hselect.untried, fun b hb => ?_⟩
  obtain ⟨hheld, hpolls, hrest⟩ := hselect.made b hb
  refine ⟨hheld.congr ?_, ?_, hrest⟩
  · cases b <;> rfl
  · cases b <;> exact hpolls

end Owner

end Qev
