/-
# No port is used after it was freed

In every run of the threads the reflocks agree with the places of the threads (`Sound`), so that a port is
there whenever one is used, and when it is freed no other thread and no handle leads to it.
-/
import Qev.Wepoll.Reflock

namespace Qev
namespace Wepoll
namespace Handles

open Lib

namespace State

variable {T : Type} {s s' : State T} {t : T} {p : ℕ} {q : Pc}

/-! ### What the accesses do -/

theorem write_eq {f : Port → Port} {port : Port} (hp : s.heap p = some port) :
    s.write p f = { s with heap := Function.update s.heap p (some (f port)) } := by
  unfold write
  rw [hp]

theorem check_eq {b : Bool} (hb : b = true) : s.check b = s := by
  unfold check
  rw [hb, Bool.not_true, Bool.or_false]

theorem visit_eq (h : ∀ p ∈ s.tree, s.heap p ≠ none) : s.visit = s := by
  have hall : (s.tree.all fun p => (s.heap p).isSome) = true :=
    List.all_eq_true.mpr fun p hp => Option.isSome_iff_ne_none.mpr (h p hp)
  unfold visit
  rw [hall, Bool.not_true, Bool.or_false]

theorem findNode_mem {ephnd : ℕ} (hf : s.findNode ephnd = some p) : p ∈ s.tree := List.mem_of_find?_eq_some hf

theorem interlockedAdd_eq {port : Port} (hp : s.heap p = some port) (n : BitVec 32) :
    s.interlockedAdd p n =
      ({ s with heap := Function.update s.heap p (some { port with reflock := port.reflock + n }) },
        port.reflock + n) := by
  unfold interlockedAdd
  rw [write_eq hp, hp]

theorem reflockRef_eq {port : Port} (hp : s.heap p = some port) (hn : port.reflock.toNat + 1 < 2 ^ 28) :
    s.reflockRef p = { s with heap := Function.update s.heap p (some { port with reflock := port.reflock + 1 }) } := by
  have hmask : port.reflock + 1 &&& reflockDestroyMask = 0 := by
    rw [and_destroyMask_eq_zero, toNat_add_ref (by omega)]
    exact hn
  unfold reflockRef
  rw [interlockedAdd_eq hp]
  exact check_eq (decide_eq_true hmask)

section

variable [DecidableEq T]

theorem meet_some {u : T} (ht : s.pc t = .signal p) (hu : s.pc u = .await p) : s.meet t u ≠ none := by
  simp [meet, ht, hu]

/-- Where a thread waits for nothing. -/
theorem advance_some (hgoes : goes (s.pc t) = true) : s.advance t ≠ none := by
  unfold advance
  cases hpc : s.pc t with
  | idle | addLock _ _ | findLock _ | delLock _ | signal _ | await _ =>
    rw [hpc] at hgoes
    cases hgoes
  | addUnlock o | findUnlock o | delUnlock o => cases o <;> exact Option.some_ne_none _
  | _ => exact Option.some_ne_none _

/-- The lock is free. -/
theorem advance_free (hwriter : s.writer = false) (hreaders : s.readers = 0) (hidle : s.pc t ≠ .idle)
    (hsignal : ∀ p, s.pc t ≠ .signal p) (hawait : ∀ p, s.pc t ≠ .await p) : s.advance t ≠ none := by
  cases hpc : s.pc t with
  | idle => exact absurd hpc hidle
  | signal p => exact absurd hpc (hsignal p)
  | await p => exact absurd hpc (hawait p)
  | addLock p ephnd | findLock ephnd | delLock ephnd =>
    simp [advance, hpc, acquireExclusive, acquireShared, hwriter, hreaders]
  | _ => exact advance_some (by rw [hpc]; rfl)

end

/-! ### The invariant -/

variable [Fintype T]

def counts (s : State T) (p : ℕ) : Counts where
  tree := s.tree.count p
  creator := tally role s.pc (p, .creator)
  reference := tally role s.pc (p, .reference)
  closing := tally role s.pc (p, .closing)
  closingReference := tally role s.pc (p, .closingReference)
  awaiting := tally role s.pc (p, .awaiting)
  signalling := tally role s.pc (p, .signalling)
  poisoning := tally role s.pc (p, .poisoning)
  deleting := tally role s.pc (p, .deleting)

/-- The reflock of the port at an address. -/
def reflock (s : State T) (p : ℕ) : Option ℕ := (s.heap p).map fun q => q.reflock.toNat

/-- The lock is what the threads under it say. A port that a reader has found is in the tree. -/
structure Locked (s : State T) : Prop where
  readers : s.readers = tally lockRole s.pc false
  writer : s.writer.toNat = tally lockRole s.pc true
  exclusive : s.writer = true → s.readers = 0
  found : ∀ t p, s.pc t = .findRef p → p ∈ s.tree

/-- The invariant. -/
structure Sound (s : State T) : Prop where
  fits : ∀ p, Fits (s.reflock p) (s.counts p)
  closed : ∀ t p q, Handles.closed (s.pc t) = some p → s.heap p = some q → q.iocpHandle = none
  locked : Locked s
  fault : s.fault = false
  failed : s.failed = false

theorem Sound.live (h : Sound s) {c : Role} (hc : role (s.pc t) = some (p, c)) :
    ∃ port, s.heap p = some port ∧ Balanced port.reflock.toNat (s.counts p) := by
  have hfits := h.fits p
  have hpos : ∀ d, d = c → 0 < tally role s.pc (p, d) := fun d hd => tally_pos (hd ▸ hc)
  unfold reflock at hfits
  cases hheap : s.heap p with
  | some port =>
    rw [hheap] at hfits
    exact ⟨port, rfl, hfits⟩
  | none =>
    rw [hheap] at hfits
    injection hfits
    cases c <;> have hp := hpos _ rfl <;> omega

theorem Sound.live_tree (h : Sound s) (hp : p ∈ s.tree) :
    ∃ port, s.heap p = some port ∧ Balanced port.reflock.toNat (s.counts p) := by
  have hfits := h.fits p
  have hpos : 0 < s.tree.count p := List.count_pos_iff.mpr hp
  unfold reflock at hfits
  cases hheap : s.heap p with
  | some port =>
    rw [hheap] at hfits
    exact ⟨port, rfl, hfits⟩
  | none =>
    rw [hheap] at hfits
    injection hfits
    omega

theorem Sound.visit_eq (h : Sound s) : s.visit = s := by
  refine State.visit_eq fun p hp => ?_
  obtain ⟨port, hport, -⟩ := h.live_tree hp
  rw [hport]
  exact Option.some_ne_none port

theorem sound_access (h : Sound s) (hpc : s.pc t = .use p) : Sound (s.write p id) := by
  obtain ⟨port, hp, -⟩ := h.live (congrArg role hpc)
  rw [write_eq hp, id_eq, ← hp, Function.update_eq_self]
  exact h

theorem Locked.writer_of (h : Locked s) (ht : lockRole (s.pc t) = some true) : s.writer = true := by
  have hwriter : 0 < s.writer.toNat := h.writer ▸ tally_pos ht
  cases hw : s.writer with
  | true => rfl
  | false =>
    rw [hw] at hwriter
    exact absurd hwriter (Nat.lt_irrefl 0)

theorem Locked.no_reader (h : Locked s) (ht : lockRole (s.pc t) = some true) (u : T) :
    lockRole (s.pc u) ≠ some false := by
  have hnone := h.readers.symm.trans (h.exclusive (h.writer_of ht))
  exact tally_eq_zero.mp hnone u

theorem sound_init : Sound (init : State T) := by
  have hnone : ∀ c : ℕ × Role, tally role (init : State T).pc c = 0 := fun c =>
    tally_eq_zero.mpr (by simp [init, role])
  refine ⟨fun p => ?_, by simp [init, Handles.closed], ⟨?_, ?_, by simp [init], by simp [init]⟩, rfl, rfl⟩
  · simp [reflock, init, Fits, counts] at hnone ⊢
    simp [hnone]
  · exact (tally_eq_zero.mpr (by simp [init, lockRole])).symm
  · exact (tally_eq_zero.mpr (by simp [init, lockRole])).symm

/-! ### What follows from it -/

/-- Who frees a port is the last that knows of it. -/
theorem Sound.last (h : Sound s) (hpc : s.pc t = .delete p) : p ∉ s.tree ∧ ∀ u, u ≠ t → port (s.pc u) ≠ some p := by
  obtain ⟨q, hq, hb⟩ := h.live (congrArg role hpc)
  have hdeleting : 0 < (s.counts p).deleting := tally_pos (congrArg role hpc)
  obtain ⟨hone, hcounted, hcreated, hawaited, hpoisoned, hdeleted⟩ := hb
  have htree : p ∉ s.tree := by
    intro hp
    have hpos : 0 < (s.counts p).tree := List.count_pos_iff.mpr hp
    omega
  refine ⟨htree, fun u hut hu => ?_⟩
  have hothers : ∀ c, role (s.pc u) = some (p, c) → False := by
    intro c hc
    have hpos : 0 < tally role s.pc (p, c) := tally_pos hc
    simp only [counts] at hone hdeleted hdeleting
    cases c with
    | deleting => exact hut (tally_unique (by omega) hc (congrArg role hpc))
    | _ => omega
  rcases port_eq_some hu with hfind | ⟨c, hc⟩
  · exact htree (h.locked.found u p hfind)
  · exact hothers c hc

/-- What `reflock_unref_and_destroy` waits for is there. -/
theorem Sound.awaited (h : Sound s) (hpc : s.pc t = .await p) :
    ∃ u, role (s.pc u) = some (p, .reference) ∨ s.pc u = .signal p := by
  obtain ⟨q, hq, hb⟩ := h.live (congrArg role hpc)
  have hawaiting : 0 < (s.counts p).awaiting := tally_pos (congrArg role hpc)
  obtain ⟨hone, hcounted, hcreated, hawaited, hpoisoned, hdeleted⟩ := hb
  by_cases href : (s.counts p).reference = 0
  · have hpos : 0 < (s.counts p).signalling := by omega
    obtain ⟨u, hu⟩ := exists_of_tally_pos hpos
    exact ⟨u, .inr (role_signalling hu)⟩
  · obtain ⟨u, hu⟩ := exists_of_tally_pos (Nat.pos_of_ne_zero href)
    exact ⟨u, .inl hu⟩

/-- Who signals finds someone who waits. -/
theorem Sound.signalled (h : Sound s) (hpc : s.pc t = .signal p) : ∃ u, s.pc u = .await p := by
  obtain ⟨q, hq, hb⟩ := h.live (congrArg role hpc)
  have hsignalling : 0 < (s.counts p).signalling := tally_pos (congrArg role hpc)
  obtain ⟨hone, hcounted, hcreated, hawaited, hpoisoned, hdeleted⟩ := hb
  have hpos : 0 < (s.counts p).awaiting := by omega
  obtain ⟨u, hu⟩ := exists_of_tally_pos hpos
  exact ⟨u, role_awaiting hu⟩

/-- Without a thread in one of the functions the ports are those in the tree. -/
theorem Sound.idle (h : Sound s) (hidle : ∀ t, s.pc t = .idle) : s.heap p ≠ none ↔ p ∈ s.tree := by
  refine ⟨fun hp => ?_, fun hp => ?_⟩
  · obtain ⟨q, hq⟩ := Option.ne_none_iff_exists'.mp hp
    have hfits := h.fits p
    unfold reflock at hfits
    rw [hq] at hfits
    obtain ⟨hone, -, -, -, -, -⟩ := hfits
    have hnone : ∀ c, tally role s.pc (p, c) = 0 := fun c => tally_eq_zero.mpr fun t => by
      rw [hidle t]
      exact (Option.some_ne_none _).symm
    simp only [counts, hnone] at hone
    exact List.count_pos_iff.mp (by omega)
  · obtain ⟨q, hq, -⟩ := h.live_tree hp
    rw [hq]
    exact Option.some_ne_none q

/-! ### A step of one thread -/

variable [DecidableEq T]

variable {x : Option Port} {l : List ℕ} {a b : Option Role}

theorem moves_goto (hpc : s'.pc = Function.update s.pc t q)
    (ha : role (s.pc t) = a.map (p, ·)) (hb : role q = b.map (p, ·)) :
    Moves a b (s.counts p) (s'.counts p) := by
  have hstep : ∀ c : Role, tally role s'.pc (p, c) + (if a = some c then 1 else 0) =
      tally role s.pc (p, c) + (if b = some c then 1 else 0) := by
    intro c
    have h := tally_update role s.pc (p, c) t q
    rw [ha, hb, ← hpc] at h
    have hiff : ∀ x : Option Role, x.map (p, ·) = some (p, c) ↔ x = some c := by
      intro x
      cases x <;> simp
    simp only [hiff] at h
    exact h
  exact ⟨hstep _, hstep _, hstep _, hstep _, hstep _, hstep _, hstep _, hstep _⟩

theorem counts_of_ne (hpc : s'.pc = Function.update s.pc t q) (hold : ∀ a, role (s.pc t) ≠ some (p, a))
    (hnew : ∀ a, role q ≠ some (p, a)) (htree : s'.tree.count p = s.tree.count p) : s'.counts p = s.counts p := by
  have hstep : ∀ a : Role, tally role s'.pc (p, a) = tally role s.pc (p, a) := by
    intro a
    have h := tally_update role s.pc (p, a) t q
    rw [if_neg (hold a), if_neg (hnew a), ← hpc] at h
    exact h
  simp only [counts, hstep, htree]

theorem counts_of_eq (hpc : s'.pc = Function.update s.pc t q) (hrole : role q = role (s.pc t))
    (htree : s'.tree.count p = s.tree.count p) : s'.counts p = s.counts p := by
  have hstep : ∀ a : Role, tally role s'.pc (p, a) = tally role s.pc (p, a) := by
    intro a
    rw [hpc]
    exact tally_update_of_eq hrole
  simp only [counts, hstep, htree]

theorem Locked.next (h : Locked s) (hpc : s'.pc = Function.update s.pc t q) (hlock : lockRole q = lockRole (s.pc t))
    (hreaders : s'.readers = s.readers) (hwriter : s'.writer = s.writer)
    (hothers : ∀ u x, u ≠ t → s.pc u = .findRef x → x ∈ s'.tree) (hq : ∀ x, q = .findRef x → x ∈ s'.tree) :
    Locked s' := by
  have hsame : ∀ b, tally lockRole s'.pc b = tally lockRole s.pc b := by
    intro b
    rw [hpc]
    exact tally_update_of_eq hlock
  refine ⟨?_, ?_, ?_, fun u x hu => ?_⟩
  · rw [hreaders, hsame]
    exact h.readers
  · rw [hwriter, hsame]
    exact h.writer
  · rw [hreaders, hwriter]
    exact h.exclusive
  · rw [hpc] at hu
    rcases eq_or_ne u t with rfl | hne
    · rw [Function.update_self] at hu
      exact hq x hu
    · rw [Function.update_of_ne hne] at hu
      exact hothers u x hne hu

/-- A step that only takes or gives back the lock. -/
theorem Sound.lock (h : Sound s) (hrole : role q = role (s.pc t)) (hclosed : Handles.closed q = none)
    (hq : ∀ x, q = .findRef x → x ∈ s.tree) {a : ℕ} {b : Bool}
    (ha : a + (if lockRole (s.pc t) = some false then 1 else 0) = s.readers + if lockRole q = some false then 1 else 0)
    (hb : b.toNat + (if lockRole (s.pc t) = some true then 1 else 0) =
      s.writer.toNat + if lockRole q = some true then 1 else 0)
    (hab : b = true → a = 0) : Sound ({ s with readers := a, writer := b }.goto t q) := by
  obtain ⟨hfits, hiocp, ⟨hreaders, hwriter, -, hfound⟩, hfault, hfailed⟩ := h
  refine ⟨fun x => ?_, fun u x port hu hport => ?_, ⟨?_, ?_, hab, fun u x hu => ?_⟩, hfault, hfailed⟩
  · have hcounts : ({ s with readers := a, writer := b }.goto t q).counts x = s.counts x := counts_of_eq rfl hrole rfl
    rw [hcounts]
    exact hfits x
  · change Handles.closed (Function.update s.pc t q u) = some x at hu
    rcases eq_or_ne u t with rfl | hne
    · rw [Function.update_self, hclosed] at hu
      cases hu
    · rw [Function.update_of_ne hne] at hu
      exact hiocp u x port hu hport
  · have hstep := tally_update lockRole s.pc false t q
    change a = tally lockRole (Function.update s.pc t q) false
    omega
  · have hstep := tally_update lockRole s.pc true t q
    change b.toNat = tally lockRole (Function.update s.pc t q) true
    omega
  · change Function.update s.pc t q u = .findRef x at hu
    rcases eq_or_ne u t with rfl | hne
    · rw [Function.update_self] at hu
      exact hq x hu
    · rw [Function.update_of_ne hne] at hu
      exact hfound u x hu

/-- A step on nothing. -/
theorem Sound.stay (h : Sound s) (hrole : role q = role (s.pc t)) (hlock : lockRole q = lockRole (s.pc t))
    (hclosed : Handles.closed q = none) (hq : ∀ x, q = .findRef x → x ∈ s.tree) : Sound (s.goto t q) :=
  h.lock hrole hclosed hq (by rw [hlock]) (by rw [hlock]) h.locked.exclusive

/-- A thread goes on, after it has changed a port and the tree. -/
def put (s : State T) (p : ℕ) (x : Option Port) (l : List ℕ) (t : T) (q : Pc) : State T :=
  { s with heap := Function.update s.heap p x, tree := l }.goto t q

theorem moves_put (ha : role (s.pc t) = a.map (p, ·)) (hb : role q = b.map (p, ·)) :
    Moves a b (s.counts p) ((s.put p x l t q).counts p) :=
  moves_goto rfl ha hb

/-- A step on one port. -/
theorem Sound.change (h : Sound s) (hlock : lockRole q = lockRole (s.pc t))
    (hold : ∀ y a, role (s.pc t) = some (y, a) → y = p) (hnew : ∀ y a, role q = some (y, a) → y = p)
    (htree : ∀ y, y ≠ p → l.count y = s.tree.count y)
    (hfits : Fits (x.map fun port => port.reflock.toNat) ((s.put p x l t q).counts p))
    (hq : ∀ y, Handles.closed q = some y → y = p ∧ ∀ port, x = some port → port.iocpHandle = none)
    (hiocp : ∀ u port', Handles.closed (s.pc u) = some p → x = some port' →
      ∃ port, s.heap p = some port ∧ (port.iocpHandle = none → port'.iocpHandle = none))
    (hothers : ∀ u y, u ≠ t → s.pc u = .findRef y → y ∈ l) (hfound : ∀ y, q = .findRef y → y ∈ l) :
    Sound (s.put p x l t q) := by
  refine ⟨fun y => ?_, fun u y port' hu hport => ?_, h.locked.next rfl hlock rfl rfl hothers hfound, h.fault, h.failed⟩
  · rcases eq_or_ne y p with rfl | hne
    · change Fits ((Function.update s.heap y x y).map fun port => port.reflock.toNat) _
      rw [Function.update_self]
      exact hfits
    · have hcounts : (s.put p x l t q).counts y = s.counts y :=
        counts_of_ne rfl (fun a ha => hne (hold y a ha)) (fun a ha => hne (hnew y a ha)) (htree y hne)
      change Fits ((Function.update s.heap p x y).map fun port => port.reflock.toNat) _
      rw [Function.update_of_ne hne, hcounts]
      exact h.fits y
  · change Handles.closed (Function.update s.pc t q u) = some y at hu
    change Function.update s.heap p x y = some port' at hport
    rcases eq_or_ne u t with rfl | hut
    · rw [Function.update_self] at hu
      obtain ⟨rfl, hnone⟩ := hq y hu
      rw [Function.update_self] at hport
      exact hnone port' hport
    · rw [Function.update_of_ne hut] at hu
      rcases eq_or_ne y p with rfl | hne
      · rw [Function.update_self] at hport
        obtain ⟨port, hheap, hclosed⟩ := hiocp u port' hu hport
        exact hclosed (h.closed u y port hu hheap)
      · rw [Function.update_of_ne hne] at hport
        exact h.closed u y port' hu hport

/-- A step that changes a port and leaves the tree alone. -/
theorem Sound.update (h : Sound s) (a b : Option Role) {port port' : Port} (hp : s.heap p = some port)
    (hiocp : port.iocpHandle = none → port'.iocpHandle = none) (hlock : lockRole q = lockRole (s.pc t))
    (ha : role (s.pc t) = a.map (p, ·)) (hb : role q = b.map (p, ·))
    (hclosed : Handles.closed q = none ∨ Handles.closed q = some p ∧ port'.iocpHandle = none)
    (hq : ∀ y, q ≠ .findRef y) (hfits : Balanced port'.reflock.toNat ((s.put p (some port') s.tree t q).counts p)) :
    Sound (s.put p (some port') s.tree t q) := by
  have hrole : ∀ {c : Option Role} {pc : Pc}, role pc = c.map (p, ·) → ∀ y d, role pc = some (y, d) → y = p := by
    intro c pc hc y d hd
    rw [hc, Option.map_eq_some_iff] at hd
    obtain ⟨e, -, he⟩ := hd
    exact (Prod.mk.inj he).1.symm
  refine h.change hlock (hrole ha) (hrole hb) (fun _ _ => rfl) hfits (fun y hy => ?_) (fun u port'' _ hx => ?_)
    (fun u y _ hu => h.locked.found u y hu) (fun y hy => absurd hy (hq y))
  · rcases hclosed with hc | ⟨hc, hnone⟩
    · exact absurd (hc.symm.trans hy).symm (Option.some_ne_none y)
    · refine ⟨Option.some.inj (hy.symm.trans hc), fun port'' hx => ?_⟩
      cases hx
      exact hnone
  · cases hx
    exact ⟨port, hp, hiocp⟩

/-! ### The steps -/

theorem refs_lt (hT : Fintype.card T < 2 ^ 28) (s : State T) (p : ℕ) :
    (s.counts p).reference + (s.counts p).closingReference < 2 ^ 28 := by
  refine (tally_add_le ?_).trans_lt hT
  simp

theorem sound_findRef (h : Sound s) (hT : Fintype.card T < 2 ^ 28) (hpc : s.pc t = .findRef p) :
    Sound ((s.reflockRef p).goto t (.findUnlock (some p))) := by
  have hmem : p ∈ s.tree := h.locked.found t p hpc
  have hpos : 0 < (s.counts p).tree := List.count_pos_iff.mpr hmem
  obtain ⟨port, hp, hb⟩ := h.live_tree hmem
  have hnew := balanced_ref hb (moves_put (x := some { port with reflock := port.reflock + 1 }) (l := s.tree)
    (q := .findUnlock (some p)) (b := some .reference) (congrArg role hpc) rfl) rfl hpos
  have hn : port.reflock.toNat + 1 < 2 ^ 28 := hnew.lt_of_tree (refs_lt hT _ p) hpos
  rw [← toNat_add_ref (by omega)] at hnew
  rw [reflockRef_eq hp hn]
  exact h.update none (some .reference) hp id (congrArg lockRole hpc).symm (congrArg role hpc) rfl
    (.inl rfl) (by simp) hnew

theorem sound_delRef (h : Sound s) (hT : Fintype.card T < 2 ^ 28) (hpc : s.pc t = .delRef p) :
    Sound ((s.reflockRef p).goto t (.delUnlock (some p))) := by
  obtain ⟨port, hp, hb⟩ := h.live (congrArg role hpc)
  have hnew := balanced_delRef hb (moves_put (x := some { port with reflock := port.reflock + 1 }) (l := s.tree)
    (q := .delUnlock (some p)) (congrArg role hpc) rfl) rfl
  have hpos : 0 < tally role (Function.update s.pc t (.delUnlock (some p))) (p, .closingReference) :=
    tally_pos (congrArg role (Function.update_self t _ s.pc))
  have hn : port.reflock.toNat + 1 < 2 ^ 28 := (hnew.eq_of_closing hpos).1.trans_lt (refs_lt hT _ p)
  rw [← toNat_add_ref (by omega)] at hnew
  rw [reflockRef_eq hp hn]
  exact h.update (some .closing) (some .closingReference) hp id (congrArg lockRole hpc).symm (congrArg role hpc) rfl
    (.inl rfl) (by simp) hnew

theorem sound_unref (h : Sound s) (hT : Fintype.card T < 2 ^ 28) (hpc : s.pc t = .unref p) :
    Sound (s.reflockUnref t p) := by
  obtain ⟨port, hp, hb⟩ := h.live (congrArg role hpc)
  obtain ⟨hpos, hle⟩ := hb.of_reference (tally_pos (congrArg role hpc))
  have hsmall := refs_lt hT s p
  have hsub := toNat_sub_ref hpos
  unfold reflockUnref
  rw [interlockedAdd_eq hp]
  simp only
  rw [check_eq (decide_eq_true (and_lostMask_eq_zero.mpr (by omega)))]
  by_cases hn : port.reflock.toNat = 2 ^ 28 + 1
  · have hnew := balanced_signal hb (moves_put (x := some { port with reflock := port.reflock + -1 }) (l := s.tree)
      (q := .signal p) (congrArg role hpc) rfl) rfl hn hsmall
    rw [← hsub] at hnew
    rw [if_pos (eq_destroy.mpr (by omega))]
    exact h.update (some .reference) (some .signalling) hp id (congrArg lockRole hpc).symm
      (congrArg role hpc) rfl (.inl rfl) (by simp) hnew
  · have hnew := balanced_unref hb (moves_put (x := some { port with reflock := port.reflock + -1 }) (l := s.tree)
      (q := .idle) (congrArg role hpc) rfl) rfl hn
    rw [← hsub] at hnew
    rw [if_neg (fun he => hn (by have := eq_destroy.mp he; omega))]
    exact h.update (some .reference) none hp id (congrArg lockRole hpc).symm
      (congrArg role hpc) rfl (.inl rfl) (by simp) hnew

theorem sound_destroy (h : Sound s) (hT : Fintype.card T < 2 ^ 28) (hpc : s.pc t = .destroy p) :
    Sound (s.reflockUnrefAndDestroy t p) := by
  obtain ⟨port, hp, hb⟩ := h.live (congrArg role hpc)
  have hclosed := h.closed t p port (congrArg Handles.closed hpc) hp
  obtain ⟨hn, -⟩ := hb.eq_of_closing (tally_pos (congrArg role hpc))
  have hpos : 0 < (s.counts p).closingReference := tally_pos (congrArg role hpc)
  have hsmall := refs_lt hT s p
  have hadd := toNat_add_destroy (x := port.reflock) (by omega) (by omega)
  unfold reflockUnrefAndDestroy
  rw [interlockedAdd_eq hp]
  simp only
  rw [check_eq (decide_eq_true (and_destroyMask_eq_destroy.mpr (by omega)))]
  by_cases hone : port.reflock.toNat = 1
  · have hnew := balanced_destroy hb (moves_put
      (x := some { port with reflock := port.reflock + (reflockDestroy - 1) }) (l := s.tree)
      (q := .poison p) (congrArg role hpc) rfl) rfl hone
    rw [← hadd] at hnew
    rw [if_neg (fun he => and_refMask_ne_zero.mp he (by omega))]
    exact h.update (some .closingReference) (some .poisoning) hp id (congrArg lockRole hpc).symm
      (congrArg role hpc) rfl (.inr ⟨rfl, hclosed⟩) (by simp) hnew
  · have hnew := balanced_await hb (moves_put
      (x := some { port with reflock := port.reflock + (reflockDestroy - 1) }) (l := s.tree)
      (q := .await p) (congrArg role hpc) rfl) rfl hone
    rw [← hadd] at hnew
    rw [if_pos (and_refMask_ne_zero.mpr (by omega))]
    exact h.update (some .closingReference) (some .awaiting) hp id (congrArg lockRole hpc).symm
      (congrArg role hpc) rfl (.inr ⟨rfl, hclosed⟩) (by simp) hnew

theorem sound_poison (h : Sound s) (hpc : s.pc t = .poison p) :
    Sound ((s.reflockExchange p).goto t (.delete p)) := by
  obtain ⟨port, hp, hb⟩ := h.live (congrArg role hpc)
  have hclosed := h.closed t p port (congrArg Handles.closed hpc) hp
  obtain ⟨hn, hnew⟩ := balanced_poison (m := reflockPoison.toNat) hb (moves_put
    (x := some { port with reflock := reflockPoison }) (l := s.tree) (q := .delete p) (congrArg role hpc) rfl) rfl
  have hany : ((s.heap p).any fun port => port.reflock = reflockDestroy) = true := by
    rw [hp]
    exact decide_eq_true (eq_destroy.mpr hn)
  unfold reflockExchange
  rw [write_eq hp, check_eq hany]
  exact h.update (some .poisoning) (some .deleting) hp id (congrArg lockRole hpc).symm (congrArg role hpc) rfl
    (.inr ⟨rfl, hclosed⟩) (by simp) hnew

theorem sound_closeCollided (h : Sound s) (hpc : s.pc t = .closeCollided p) :
    Sound ((s.portClose p).goto t (.delete p)) := by
  obtain ⟨port, hp, hb⟩ := h.live (congrArg role hpc)
  have hnew := balanced_collided hb (moves_put (x := some { port with iocpHandle := none }) (l := s.tree)
    (q := .delete p) (congrArg role hpc) rfl) rfl
  unfold portClose
  rw [write_eq hp]
  exact h.update (some .creator) (some .deleting) hp (fun _ => rfl) (congrArg lockRole hpc).symm
    (congrArg role hpc) rfl (.inr ⟨rfl, rfl⟩) (by simp) hnew

theorem sound_close (h : Sound s) (hpc : s.pc t = .close p) : Sound ((s.portClose p).goto t (.destroy p)) := by
  obtain ⟨port, hp, hb⟩ := h.live (congrArg role hpc)
  have hcounts : (s.put p (some { port with iocpHandle := none }) s.tree t (.destroy p)).counts p = s.counts p :=
    counts_of_eq rfl (congrArg role hpc).symm rfl
  unfold portClose
  rw [write_eq hp]
  refine h.update (some .closingReference) (some .closingReference) hp (fun _ => rfl)
    (congrArg lockRole hpc).symm (congrArg role hpc) rfl (.inr ⟨rfl, rfl⟩) (by simp) ?_
  rw [hcounts]
  exact hb

theorem role_of_closed {pc : Pc} (h : Handles.closed pc = some p) : ∃ c, role pc = some (p, c) := by
  cases pc with
  | destroy x | await x | poison x | delete x =>
    cases h
    exact ⟨_, rfl⟩
  | _ => cases h

theorem sound_portDelete (h : Sound s) (hpc : s.pc t = .delete p) : Sound ((s.portDelete p).goto t .idle) := by
  obtain ⟨port, hp, hb⟩ := h.live (congrArg role hpc)
  have hnone := h.closed t p port (congrArg Handles.closed hpc) hp
  have hnew := balanced_delete hb (moves_put (x := none) (l := s.tree) (q := .idle) (b := none)
    (congrArg role hpc) rfl) rfl
  have hany : ((s.heap p).any fun port => port.iocpHandle = none) = true := by
    rw [hp]
    exact decide_eq_true hnone
  have hfree : s.portDelete p = { s with heap := Function.update s.heap p none } := by
    unfold portDelete
    rw [write_eq hp, check_eq hany]
    simp only [Function.update_idem]
  rw [hfree]
  refine h.change (congrArg lockRole hpc).symm (fun y c hc => ?_) (by simp [role]) (fun _ _ => rfl) hnew
    (by simp [Handles.closed]) (by simp) (fun u y _ hu => h.locked.found u y hu) (by simp)
  exact (Prod.mk.inj (Option.some.inj ((congrArg role hpc).symm.trans hc))).1.symm

theorem sound_create {ephnd : ℕ} (h : Sound s) (hpc : s.pc t = .idle) (hp : s.heap p = none) :
    Sound ({ s with heap := Function.update s.heap p (some ⟨some ephnd, 0, 0⟩) }.goto t (.addLock p ephnd)) := by
  have hfits : Fits none (s.counts p) := by
    have hfits := h.fits p
    unfold reflock at hfits
    rwa [hp] at hfits
  have hnew := balanced_create hfits (moves_put (x := some ⟨some ephnd, 0, 0⟩) (l := s.tree) (q := .addLock p ephnd)
    (a := none) (congrArg role hpc) rfl) rfl
  refine h.change (congrArg lockRole hpc).symm (fun y c hc => ?_) (fun y c hc => ?_) (fun _ _ => rfl) hnew
    (by simp [Handles.closed]) (fun u port' hu _ => ?_) (fun u y _ hu => h.locked.found u y hu) (by simp)
  · exact absurd ((congrArg role hpc).symm.trans hc).symm (Option.some_ne_none _)
  · exact (Prod.mk.inj (Option.some.inj hc)).1.symm
  · obtain ⟨c, hc⟩ := role_of_closed hu
    obtain ⟨port, hport, -⟩ := h.live hc
    exact absurd (hp.symm.trans hport).symm (Option.some_ne_none port)

theorem sound_treeAdd {ephnd : ℕ} (h : Sound s) (hpc : s.pc t = .add p ephnd) : Sound (s.treeAdd t p ephnd) := by
  unfold treeAdd
  cases s.findNode ephnd with
  | some _ =>
    simp only [h.visit_eq]
    exact h.stay (q := .addUnlock (some p)) (congrArg role hpc).symm (congrArg lockRole hpc).symm rfl (by simp)
  | none =>
    obtain ⟨port, hp, hb⟩ := h.live (congrArg role hpc)
    have hlive : ∀ y ∈ s.tree, Function.update s.heap p (some { port with key := ephnd }) y ≠ none := by
      intro y hy
      rcases eq_or_ne y p with rfl | hne
      · simp
      · obtain ⟨port', hport', -⟩ := h.live_tree hy
        rw [Function.update_of_ne hne, hport']
        exact Option.some_ne_none port'
    have hnew := balanced_add hb (moves_put (x := some { port with key := ephnd }) (l := p :: s.tree)
      (q := .addUnlock none) (b := none) (congrArg role hpc) rfl) List.count_cons_self
    simp only [write_eq hp, State.visit_eq (s := { s with heap := Function.update s.heap p _ }) hlive]
    refine h.change (congrArg lockRole hpc).symm (fun y c hc => ?_) (by simp [role]) (fun y hy => ?_) hnew
      (by simp [Handles.closed]) (fun u port' _ hx => ?_) (fun u y _ hu => ?_) (by simp)
    · exact (Prod.mk.inj (Option.some.inj ((congrArg role hpc).symm.trans hc))).1.symm
    · exact List.count_cons_of_ne hy.symm
    · cases hx
      exact ⟨port, hp, id⟩
    · exact List.mem_cons_of_mem p (h.locked.found u y hu)

theorem sound_treeFind {ephnd : ℕ} (h : Sound s) (hpc : s.pc t = .find ephnd) : Sound (s.treeFind t ephnd) := by
  unfold treeFind
  cases hf : s.findNode ephnd with
  | none =>
    simp only [h.visit_eq]
    exact h.stay (q := .findUnlock none) (congrArg role hpc).symm (congrArg lockRole hpc).symm rfl (by simp)
  | some p =>
    simp only [h.visit_eq]
    refine h.stay (q := .findRef p) (congrArg role hpc).symm (congrArg lockRole hpc).symm rfl fun y hy => ?_
    cases hy
    exact findNode_mem hf

theorem sound_treeDel {ephnd : ℕ} (h : Sound s) (hpc : s.pc t = .del ephnd) : Sound (s.treeDel t ephnd) := by
  unfold treeDel
  cases hf : s.findNode ephnd with
  | none =>
    simp only [h.visit_eq]
    exact h.stay (q := .delUnlock none) (congrArg role hpc).symm (congrArg lockRole hpc).symm rfl (by simp)
  | some p =>
    have hmem : p ∈ s.tree := findNode_mem hf
    obtain ⟨port, hp, hb⟩ := h.live_tree hmem
    have hnew := balanced_del hb (moves_put (x := some port) (l := s.tree.erase p) (q := .delRef p) (a := none)
      (congrArg role hpc) rfl) List.count_erase_self (List.count_pos_iff.mpr hmem)
    have hsame : { s with tree := s.tree.erase p }.goto t (.delRef p) =
        s.put p (some port) (s.tree.erase p) t (.delRef p) := by
      rw [put, ← hp, Function.update_eq_self]
    simp only [h.visit_eq, hsame]
    refine h.change (congrArg lockRole hpc).symm (fun y c hc => ?_) (fun y c hc => ?_) (fun y hy => ?_) hnew
      (by simp [Handles.closed]) (fun u port' _ hx => ?_) (fun u y _ hu => ?_) (by simp)
    · exact absurd ((congrArg role hpc).symm.trans hc).symm (Option.some_ne_none _)
    · exact (Prod.mk.inj (Option.some.inj hc)).1.symm
    · exact List.count_erase_of_ne hy
    · cases hx
      exact ⟨port, hp, id⟩
    · exact absurd (congrArg lockRole hu) (h.locked.no_reader (congrArg lockRole hpc) u)

/-- The thread that waits goes on with the one that signals. -/
theorem sound_meet {u : T} (h : Sound s) (ht : s.pc t = .signal p) (hu : s.pc u = .await p) :
    Sound ((s.goto t .idle).goto u (.poison p)) := by
  have hut : u ≠ t := by
    rintro rfl
    rw [hu] at ht
    cases ht
  have hu' : (s.goto t .idle).pc u = .await p := (Function.update_of_ne hut _ _).trans hu
  obtain ⟨port, hp, hb⟩ := h.live (congrArg role ht)
  have hleft : Moves (some .signalling) none (s.counts p) ((s.goto t .idle).counts p) :=
    moves_goto rfl (congrArg role ht) rfl
  have hwoken : Moves (some .awaiting) (some .poisoning) ((s.goto t .idle).counts p)
      (((s.goto t .idle).goto u (.poison p)).counts p) := moves_goto rfl (congrArg role hu') rfl
  have hnew := balanced_meet hb hleft hwoken rfl
  have hlocked : Locked (s.goto t .idle) := h.locked.next rfl (congrArg lockRole ht).symm rfl rfl
    (fun v x _ hv => h.locked.found v x hv) (by simp)
  refine ⟨fun x => ?_, fun v x port' hv hport' => ?_, hlocked.next rfl (congrArg lockRole hu').symm rfl rfl
    (fun v x _ hv => hlocked.found v x hv) (by simp), h.fault, h.failed⟩
  · rcases eq_or_ne x p with rfl | hne
    · change Fits ((s.heap x).map _) _
      rw [hp]
      exact hnew
    · have hcounts : ((s.goto t .idle).goto u (.poison p)).counts x = (s.goto t .idle).counts x :=
        counts_of_ne rfl (by simp [hu', role, hne.symm]) (by simp [role, hne.symm]) rfl
      have hcounts' : (s.goto t .idle).counts x = s.counts x :=
        counts_of_ne rfl (by simp [ht, role, hne.symm]) (by simp [role]) rfl
      rw [hcounts, hcounts']
      exact h.fits x
  · change Handles.closed (Function.update (Function.update s.pc t .idle) u (.poison p) v) = some x at hv
    rcases eq_or_ne v u with rfl | hvu
    · rw [Function.update_self] at hv
      cases hv
      exact h.closed v p port' (congrArg Handles.closed hu) hport'
    · rw [Function.update_of_ne hvu] at hv
      rcases eq_or_ne v t with rfl | hvt
      · rw [Function.update_self] at hv
        cases hv
      · rw [Function.update_of_ne hvt] at hv
        exact h.closed v x port' hv hport'

/-! ### The lock -/

theorem sound_acquireExclusive (h : Sound s) (hs : s.acquireExclusive = some s') (hrole : role q = role (s.pc t))
    (hold : lockRole (s.pc t) = none) (hnew : lockRole q = some true) (hclosed : Handles.closed q = none)
    (hq : ∀ x, q ≠ .findRef x) : Sound (s'.goto t q) := by
  unfold acquireExclusive at hs
  split at hs
  · cases hs
  · rename_i hfree
    rw [not_or, not_not] at hfree
    cases hs
    refine h.lock hrole hclosed (fun x hx => absurd hx (hq x)) ?_ ?_ fun _ => hfree.2
    · simp [hold, hnew]
    · simp [hold, hnew, hfree.1]

theorem sound_acquireShared (h : Sound s) (hs : s.acquireShared = some s') (hrole : role q = role (s.pc t))
    (hold : lockRole (s.pc t) = none) (hnew : lockRole q = some false) (hclosed : Handles.closed q = none)
    (hq : ∀ x, q ≠ .findRef x) : Sound (s'.goto t q) := by
  unfold acquireShared at hs
  split at hs
  · cases hs
  · rename_i hfree
    cases hs
    refine h.lock hrole hclosed (fun x hx => absurd hx (hq x)) ?_ ?_ fun hw => absurd hw hfree
    · simp [hold, hnew]
    · simp [hold, hnew]

theorem sound_releaseExclusive (h : Sound s) (hrole : role q = role (s.pc t)) (hold : lockRole (s.pc t) = some true)
    (hnew : lockRole q = none) (hclosed : Handles.closed q = none) (hq : ∀ x, q ≠ .findRef x) :
    Sound (s.releaseExclusive.goto t q) := by
  have hwriter : s.writer = true := h.locked.writer_of hold
  refine h.lock hrole hclosed (fun x hx => absurd hx (hq x)) (b := false) ?_ ?_ fun hw => absurd hw Bool.false_ne_true
  · simp [hold, hnew]
  · simp [hold, hnew, hwriter]

theorem sound_releaseShared (h : Sound s) (hrole : role q = role (s.pc t)) (hold : lockRole (s.pc t) = some false)
    (hnew : lockRole q = none) (hclosed : Handles.closed q = none) (hq : ∀ x, q ≠ .findRef x) :
    Sound (s.releaseShared.goto t q) := by
  have hpos : 0 < s.readers := by
    rw [h.locked.readers]
    exact tally_pos hold
  refine h.lock hrole hclosed (fun x hx => absurd hx (hq x)) (a := s.readers - 1) ?_ ?_ fun hw => ?_
  · rw [hold, hnew, if_pos rfl, if_neg (by simp)]
    omega
  · simp [hold, hnew]
  · rw [h.locked.exclusive hw]

/-! ### The runs -/

theorem sound_advance (h : Sound s) (hT : Fintype.card T < 2 ^ 28) (hs : s.advance t = some s') : Sound s' := by
  unfold advance at hs
  cases hpc : s.pc t with
  | idle | signal p | await p => simp only [hpc, reduceCtorEq] at hs
  | addLock p ephnd =>
    simp only [hpc, Option.map_eq_some_iff] at hs
    obtain ⟨u, hu, rfl⟩ := hs
    exact sound_acquireExclusive h hu (congrArg role hpc).symm (congrArg lockRole hpc) rfl rfl (by simp)
  | add p ephnd =>
    simp only [hpc, Option.some.injEq] at hs
    exact hs ▸ sound_treeAdd h hpc
  | addUnlock o =>
    cases o with
    | none =>
      simp only [hpc, Option.some.injEq] at hs
      exact hs ▸ sound_releaseExclusive h (congrArg role hpc).symm (congrArg lockRole hpc) rfl rfl (by simp)
    | some p =>
      simp only [hpc, Option.some.injEq] at hs
      exact hs ▸ sound_releaseExclusive h (congrArg role hpc).symm (congrArg lockRole hpc) rfl rfl (by simp)
  | closeCollided p =>
    simp only [hpc, Option.some.injEq] at hs
    exact hs ▸ sound_closeCollided h hpc
  | findLock ephnd =>
    simp only [hpc, Option.map_eq_some_iff] at hs
    obtain ⟨u, hu, rfl⟩ := hs
    exact sound_acquireShared h hu (congrArg role hpc).symm (congrArg lockRole hpc) rfl rfl (by simp)
  | find ephnd =>
    simp only [hpc, Option.some.injEq] at hs
    exact hs ▸ sound_treeFind h hpc
  | findRef p =>
    simp only [hpc, Option.some.injEq] at hs
    exact hs ▸ sound_findRef h hT hpc
  | findUnlock o =>
    cases o with
    | none =>
      simp only [hpc, Option.some.injEq] at hs
      exact hs ▸ sound_releaseShared h (congrArg role hpc).symm (congrArg lockRole hpc) rfl rfl (by simp)
    | some p =>
      simp only [hpc, Option.some.injEq] at hs
      exact hs ▸ sound_releaseShared h (congrArg role hpc).symm (congrArg lockRole hpc) rfl rfl (by simp)
  | use p =>
    simp only [hpc, Option.some.injEq] at hs
    exact hs ▸ h.stay (congrArg role hpc).symm (congrArg lockRole hpc).symm rfl (by simp)
  | unref p =>
    simp only [hpc, Option.some.injEq] at hs
    exact hs ▸ sound_unref h hT hpc
  | delLock ephnd =>
    simp only [hpc, Option.map_eq_some_iff] at hs
    obtain ⟨u, hu, rfl⟩ := hs
    exact sound_acquireExclusive h hu (congrArg role hpc).symm (congrArg lockRole hpc) rfl rfl (by simp)
  | del ephnd =>
    simp only [hpc, Option.some.injEq] at hs
    exact hs ▸ sound_treeDel h hpc
  | delRef p =>
    simp only [hpc, Option.some.injEq] at hs
    exact hs ▸ sound_delRef h hT hpc
  | delUnlock o =>
    cases o with
    | none =>
      simp only [hpc, Option.some.injEq] at hs
      exact hs ▸ sound_releaseExclusive h (congrArg role hpc).symm (congrArg lockRole hpc) rfl rfl (by simp)
    | some p =>
      simp only [hpc, Option.some.injEq] at hs
      exact hs ▸ sound_releaseExclusive h (congrArg role hpc).symm (congrArg lockRole hpc) rfl rfl (by simp)
  | close p =>
    simp only [hpc, Option.some.injEq] at hs
    exact hs ▸ sound_close h hpc
  | destroy p =>
    simp only [hpc, Option.some.injEq] at hs
    exact hs ▸ sound_destroy h hT hpc
  | poison p =>
    simp only [hpc, Option.some.injEq] at hs
    exact hs ▸ sound_poison h hpc
  | delete p =>
    simp only [hpc, Option.some.injEq] at hs
    exact hs ▸ sound_portDelete h hpc

theorem sound_step {a : Act T} (h : Sound s) (hT : Fintype.card T < 2 ^ 28) (hs : s.step a = some s') : Sound s' := by
  cases a with
  | begin t c =>
    simp only [step, Option.ite_none_right_eq_some] at hs
    obtain ⟨hpc, hs⟩ := hs
    cases c with
    | create p ephnd =>
      simp only [begin, Option.ite_none_right_eq_some, Option.some.injEq] at hs
      obtain ⟨hp, rfl⟩ := hs
      exact sound_create h hpc hp
    | use ephnd =>
      simp only [begin, Option.some.injEq] at hs
      exact hs ▸ h.stay (congrArg role hpc).symm (congrArg lockRole hpc).symm rfl (by simp)
    | close ephnd =>
      simp only [begin, Option.some.injEq] at hs
      exact hs ▸ h.stay (congrArg role hpc).symm (congrArg lockRole hpc).symm rfl (by simp)
  | advance t => exact sound_advance h hT hs
  | access t =>
    simp only [step, access] at hs
    split at hs
    · rename_i p hpc
      cases hs
      exact sound_access h hpc
    · cases hs
  | meet t u =>
    simp only [step, meet] at hs
    split at hs
    · rename_i p q ht hu
      simp only [Option.ite_none_right_eq_some, Option.some.injEq] at hs
      obtain ⟨rfl, rfl⟩ := hs
      exact sound_meet h ht hu
    · cases hs

theorem sound_run {acts : List (Act T)} (hT : Fintype.card T < 2 ^ 28) (hrun : Runs init acts s) : Sound s :=
  Run.invariant (fun _ _ _ h hs => sound_step h hT hs) hrun sound_init

/-! ### The result -/

/-- There is always a thread that goes on. -/
theorem Sound.goes_on (h : Sound s) (hbusy : s.pc t ≠ .idle) :
    ∃ u, s.advance u ≠ none ∨ ∃ v, s.meet u v ≠ none := by
  by_cases hsignal : ∃ u p, s.pc u = .signal p
  · obtain ⟨u, p, hu⟩ := hsignal
    obtain ⟨v, hv⟩ := h.signalled hu
    exact ⟨u, .inr ⟨v, meet_some hu hv⟩⟩
  by_cases hawait : ∃ u p, s.pc u = .await p
  · obtain ⟨u, p, hu⟩ := hawait
    obtain ⟨v, hv | hv⟩ := h.awaited hu
    · exact ⟨v, .inl (advance_some (goes_of_reference hv))⟩
    · exact absurd ⟨v, p, hv⟩ hsignal
  by_cases hlock : ∃ u b, lockRole (s.pc u) = some b
  · obtain ⟨u, b, hu⟩ := hlock
    exact ⟨u, .inl (advance_some (goes_of_lockRole hu))⟩
  -- nobody holds the lock, so that the thread we know of takes it, if this is what it waits for
  push Not at hsignal hawait hlock
  have hreaders : s.readers = 0 := h.locked.readers.trans (tally_eq_zero.mpr fun u => hlock u false)
  have hwriter : s.writer.toNat = 0 := h.locked.writer.trans (tally_eq_zero.mpr fun u => hlock u true)
  exact ⟨t, .inl (advance_free (Bool.toNat_eq_zero.mp hwriter) hreaders hbusy (hsignal t) (hawait t))⟩

/-- Threads create, use and close ports in any order. No memory is used that is not a port, and no assertion on the
reflock or the completion port fails; who frees a port is the last that leads to it; `epoll_close` waits for a thread
that has a reference or is about to wake it, some thread always goes on, and when none is left the ports are those
in the tree. -/
theorem port_freed_last {acts : List (Act T)} (hT : Fintype.card T < 2 ^ 28) (hrun : Runs init acts s) :
    s.fault = false ∧ s.failed = false ∧
      (∀ t p, s.pc t = .delete p → p ∉ s.tree ∧ ∀ u, u ≠ t → port (s.pc u) ≠ some p) ∧
      (∀ t p, s.pc t = .await p → ∃ u, role (s.pc u) = some (p, .reference) ∨ s.pc u = .signal p) ∧
      (∀ t, s.pc t ≠ .idle → ∃ u, s.advance u ≠ none ∨ ∃ v, s.meet u v ≠ none) ∧
      ((∀ t, s.pc t = .idle) → ∀ p, s.heap p ≠ none ↔ p ∈ s.tree) := by
  have h := sound_run hT hrun
  exact ⟨h.fault, h.failed, fun _ _ => h.last, fun _ _ => h.awaited, fun _ => h.goes_on, fun hidle _ => h.idle hidle⟩

/-- A port is created; a thread uses it while another one closes it. -/
def closing : List (Act (Fin 2)) :=
  [.begin 0 (.create 7 5), .advance 0, .advance 0, .advance 0,
    .begin 0 (.use 5), .advance 0, .advance 0, .advance 0, .advance 0,
    .begin 1 (.close 5), .advance 1, .advance 1, .advance 1, .advance 1, .advance 1, .advance 1]

theorem port_freed_last_two : ∃ s, Runs init closing s ∧ s.fault = false ∧ s.pc 1 = .await 7 ∧
    ∃ u, role (s.pc u) = some (7, .reference) ∨ s.pc u = .signal 7 := by
  have hpc : (execFrom step init closing).map (fun s => s.pc 1) = some (.await 7) := by decide +kernel
  obtain ⟨s, hs, hpc⟩ := Option.map_eq_some_iff.mp hpc
  have hrun : Runs init closing s := Run.iff_execFrom.mpr hs
  obtain ⟨hfault, -, -, hawait, -⟩ := port_freed_last (by simp) hrun
  exact ⟨s, hrun, hfault, hpc, hawait 1 7 hpc⟩

end State

end Handles
end Wepoll
end Qev
