/-
# ev_verify

`ev_verify` goes through the lists of the fds, both heaps and the arrays, and aborts where a watcher's `active`, `at`,
`priority` or `pending` is not what the place it is in says. In the builds that check often every start and stop calls
it, and so do the loops over the heaps.

`Built` is what it goes by. It then returns exactly if `activecnt` is not below -1 (`Built.verify_iff`), which is not
checked against the watchers.
-/
import Qev.Loop.Indexes
import Qev.Loop.Once

namespace Qev

open Lib

namespace Loop

variable {U T K : Type} [DecidableEq U] [LinearOrder T] [Add T] [Sub T] [Zero T]

section

variable (e : Env U T) (l : Loop U T K)

/-- `verify_watcher`: the priority is in range, and the place in `pendings` names the watcher. -/
def verifyWatcher (w : Watcher U) : Bool :=
  decide (minpri ≤ l.pend.priority w ∧ l.pend.abspri w < numpri) &&
    decide (l.pend.pending w ≠ 0 → (l.pend.entry (l.pend.abspri w) (l.pend.pending w - 1)).w = w)

/-- `verify_heap`, where `fam` says what the watchers of the heap are. -/
def verifyHeap {W : Type} [DecidableEq W] (d : Deadlines W T) (fam : W → Watcher U) : Bool :=
  (List.range d.cnt).all fun j =>
    let i := j + e.heap.heap0
    let w := (d.heap.cells i).anheW
    decide (d.active w = i) &&
      decide (i ≠ e.heap.heap0 → d.heap.anheAt (e.heap.hparent i) ≤ d.heap.anheAt i) &&
      decide (d.heap.anheAt i = d.wAt w) && l.verifyWatcher (fam w)

/-- `array_verify`. -/
def arrayVerify {W : Type} (s : Slots W) (pri : ℕ) (fam : W → Watcher U) : Bool :=
  (List.range (s.cnt pri)).reverse.all fun cnt =>
    decide (s.active (s.cells pri cnt) = cnt + 1) && l.verifyWatcher (fam (s.cells pri cnt))

/-- What `ev_verify` does for the list of an fd from its entry `j` on; it has `w2` follow half as fast, to find
a list that contains a loop. -/
def verifyFd (fd : ℕ) : ℕ → List (IoW U) → List (IoW U) → Bool
  | _, [], _ => true
  | j, w :: ws, w2 =>
    l.verifyWatcher (.io w) && decide (j % 2 = 1 → w2.head? ≠ some w) &&
      decide (l.fds.active w = 1) && decide (l.fds.fd w = fd) &&
      verifyFd fd (j + 1) ws (if j % 2 = 1 then w2.tail else w2)

/-- Whether `ev_verify` returns. The arrays have no capacities here, and an fd is not negative. -/
def evVerify : Bool :=
  decide (-1 ≤ l.activecnt) &&
    ((List.range l.fds.anfdmax).all fun fd => l.verifyFd fd 0 (l.fds.anfds fd).head (l.fds.anfds fd).head) &&
    l.verifyHeap e l.timers .timer && l.verifyHeap e l.periodics .periodic &&
    ((List.range numpri).reverse.all fun i => l.arrayVerify l.idles i .idle) &&
    l.arrayVerify l.forks 0 .fork && l.arrayVerify l.cleanups 0 .cleanup && l.arrayVerify l.asyncs 0 .async &&
    l.arrayVerify l.prepares 0 .prepare && l.arrayVerify l.checks 0 .check

end

end Loop

/-! ### What is pending -/

namespace Pend

variable {W : Type} [DecidableEq W] {p : Pend W} {w : W}

/-- The priorities are in range, and a watcher's `pending` is a place in its queue that names it. There may be
entries whose watcher has no such place any more. -/
structure Named (p : Pend W) : Prop where
  range : p.InRange
  place : ∀ w, p.pending w ≠ 0 → p.pending w ≤ p.pendingcnt (p.abspri w) ∧
    (p.entry (p.abspri w) (p.pending w - 1)).w = w

theorem Named.feed (h : p.Named) (w : W) (revents : Events) : (p.evFeedEvent w revents).Named := by
  have hpri := priority_feed p w revents
  refine ⟨fun v => by rw [hpri]; exact h.range v, fun v hv => ?_⟩
  rw [abspri_congr hpri]
  unfold evFeedEvent at hv ⊢
  by_cases hw : p.pending w = 0
  · simp only [hw, ne_eq, not_true_eq_false, ↓reduceIte, Nat.add_sub_cancel] at hv ⊢
    show Function.update p.pending w _ v ≤ Function.update p.pendingcnt (p.abspri w) _ (p.abspri v) ∧
      (((p.setCnt (p.abspri w) _).setPending w _).setEntry (p.abspri w) (p.pendingcnt (p.abspri w)) _
        |>.entry (p.abspri v) (Function.update p.pending w _ v - 1)).w = v
    replace hv : Function.update p.pending w _ v ≠ 0 := hv
    rw [entry_setEntry]
    by_cases hvw : v = w
    · rw [hvw]
      simp
    · rw [Function.update_of_ne hvw] at hv ⊢
      obtain ⟨hle, he⟩ := h.place v hv
      by_cases hq : p.abspri v = p.abspri w
      · rw [hq] at hle he ⊢
        rw [Function.update_self, if_neg (by omega)]
        exact ⟨by omega, he⟩
      · rw [Function.update_of_ne hq, if_neg fun hc => hq hc.1]
        exact ⟨hle, he⟩
  · simp only [hw, ne_eq, not_false_eq_true, ↓reduceIte] at hv ⊢
    obtain ⟨hle, he⟩ := h.place v hv
    refine ⟨hle, ?_⟩
    show ((p.setEntry _ _ _).entry (p.abspri v) (p.pending v - 1)).w = v
    rw [entry_setEntry]
    split
    · rename_i hsame
      rw [hsame.1, hsame.2] at he
      exact he
    · exact he

theorem Named.feeds (h : p.Named) (ws : List W) (revents : Events) :
    (ws.foldl (fun p w => p.evFeedEvent w revents) p).Named := by
  induction ws generalizing p with
  | nil => exact h
  | cons w ws ih => exact ih (h.feed w revents)

section

omit [DecidableEq W]

/-- What the places do not go by. -/
theorem Named.congr {q : Pend W} (h : p.Named) (he : q.pendings = p.pendings) (hc : q.pendingcnt = p.pendingcnt)
    (hp : q.pending = p.pending) (hpri : q.priority = p.priority) : q.Named := by
  refine ⟨fun v => by rw [hpri]; exact h.range v, fun v hv => ?_⟩
  have hentry : ∀ i, q.entry (p.abspri v) i = p.entry (p.abspri v) i := fun i => by unfold entry; rw [he]
  rw [hp] at hv ⊢
  rw [abspri_congr hpri, hc, hentry]
  exact h.place v hv

end

/-- A watcher is no longer pending, whatever its entry is. -/
theorem Named.drop (h : p.Named) (w : W) : (p.setPending w 0).Named := by
  refine ⟨h.range, fun v hv => ?_⟩
  replace hv : Function.update p.pending w 0 v ≠ 0 := hv
  show Function.update p.pending w 0 v ≤ _ ∧ (p.entry _ (Function.update p.pending w 0 v - 1)).w = v
  by_cases hvw : v = w
  · rw [hvw, Function.update_self] at hv
    exact absurd rfl hv
  · rw [Function.update_of_ne hvw] at hv ⊢
    exact h.place v hv

section

omit [DecidableEq W]

/-- An entry that no watcher's place is. -/
theorem Named.blank (h : p.Named) {pri i : ℕ} (hfree : ∀ v, p.pending v ≠ 0 → p.abspri v = pri → p.pending v - 1 ≠ i)
    (e : ANPENDING W) : (p.setEntry pri i e).Named := by
  refine ⟨h.range, fun v hv => ?_⟩
  obtain ⟨hle, he⟩ := h.place v hv
  refine ⟨hle, ?_⟩
  rw [pending_setEntry, entry_setEntry, if_neg]
  · exact he
  · exact fun hc => hfree v hv hc.1 hc.2

end

theorem Named.clear (h : p.Named) (w : W) : (p.clearPending w).Named := by
  unfold clearPending
  dsimp only
  split
  · rename_i hw
    refine (h.drop w).blank (fun v hv hpri hi => ?_) _
    have hvw : v ≠ w := by
      rintro rfl
      exact hv (Function.update_self ..)
    have hv' : (p.setPending w 0).pending v = p.pending v := Function.update_of_ne hvw ..
    rw [hv'] at hv hi
    obtain ⟨-, hv⟩ := h.place v hv
    obtain ⟨-, hw⟩ := h.place w hw
    rw [show p.abspri v = p.abspri w from hpri, hi, hw] at hv
    exact hvw hv.symm
  · exact h

/-- The watcher of the entry that is taken is no longer pending. -/
theorem Named.pop (h : p.Named) (pri : ℕ) : (p.pop pri).Named := by
  unfold Pend.pop
  dsimp only
  have hdrop := h.drop (p.entry pri (p.pendingcnt pri - 1)).w
  refine ⟨hdrop.range, fun v hv => ?_⟩
  obtain ⟨hle, he⟩ := hdrop.place v hv
  refine ⟨?_, he⟩
  show _ ≤ Function.update p.pendingcnt pri (p.pendingcnt pri - 1) (p.abspri v)
  by_cases hpri : p.abspri v = pri
  · -- the top is the place of no watcher that is still pending
    have htop : (p.setPending (p.entry pri (p.pendingcnt pri - 1)).w 0).pending v ≠ p.pendingcnt pri := by
      intro hc
      rw [hc] at he
      refine hv ?_
      replace he : (p.entry (p.abspri v) (p.pendingcnt pri - 1)).w = v := he
      rw [hpri] at he
      rw [← he]
      exact Function.update_self ..
    rw [hpri, Function.update_self]
    replace hle : (p.setPending (p.entry pri (p.pendingcnt pri - 1)).w 0).pending v ≤ p.pendingcnt (p.abspri v) := hle
    rw [hpri] at hle
    exact Nat.le_sub_one_of_lt (lt_of_le_of_ne hle htop)
  · rw [Function.update_of_ne hpri]
    exact hle

/-- The priority of a watcher that is not pending says nothing. -/
theorem Named.setPriority (h : p.Named) (hw : p.pending w = 0) {pri : ℤ} (hpri : minpri ≤ pri ∧ pri ≤ maxpri) :
    (p.setPriority w pri).Named := by
  refine ⟨fun v => ?_, fun v hv => ?_⟩
  · show minpri ≤ Function.update p.priority w pri v ∧ Function.update p.priority w pri v ≤ maxpri
    by_cases hvw : v = w
    · rw [hvw, Function.update_self]
      exact hpri
    · rw [Function.update_of_ne hvw]
      exact h.range v
  · have hvw : v ≠ w := fun hc => hv (hc ▸ hw)
    have habs : (p.setPriority w pri).abspri v = p.abspri v := by
      show (Function.update p.priority w pri v - minpri).toNat = _
      rw [Function.update_of_ne hvw]
      rfl
    rw [habs]
    exact h.place v hv

theorem Named.priAdjust (h : p.Named) (w : W) : p.priAdjust w = p := h.range.priAdjust w

end Pend

namespace Fds

variable {W : Type} [DecidableEq W] {s : Fds W}

/-- The lists are as the watchers say, whose `active` is 0 or 1. -/
structure Listed (s : Fds W) : Prop where
  linked : s.Linked
  one : ∀ w, s.active w ≤ 1

end Fds

namespace Loop

variable {U T K : Type} [DecidableEq U] [LinearOrder T] [Add T] [Sub T] [Zero T]
variable {e : Env U T} {l m : Loop U T K}

/-- What `ev_verify` goes by. -/
structure Built (e : Env U T) (l : Loop U T K) : Prop where
  indexes : Indexes.Inv e l
  listed : l.fds.Listed
  named : l.pend.Named

section

omit [Add T] [Sub T] [Zero T]

theorem Built.verifyWatcher (h : Built e l) (w : Watcher U) : l.verifyWatcher w = true := by
  unfold Loop.verifyWatcher
  rw [decide_eq_true ⟨(h.named.range w).1, h.named.range.abspri_lt w⟩, Bool.true_and, decide_eq_true_eq]
  exact fun hw => (h.named.place w hw).2

theorem Built.verifyHeap (h : Built e l) {W : Type} [DecidableEq W] {d : Deadlines W T}
    (hd : d.Ok e.heap fun w => d.active w ≠ 0) (fam : W → Watcher U) : l.verifyHeap e d fam = true := by
  unfold Loop.verifyHeap
  refine List.all_eq_true.mpr fun j hj => ?_
  have hj := List.mem_range.mp hj
  have hlow : e.heap.heap0 ≤ j + e.heap.heap0 := Nat.le_add_left ..
  have hhigh : j + e.heap.heap0 < e.heap.heap0 + d.cnt := by omega
  have hplace := (hd.linked.links.back _ hlow hhigh).1
  have horder : j + e.heap.heap0 ≠ e.heap.heap0 →
      d.heap.anheAt (e.heap.hparent (j + e.heap.heap0)) ≤ d.heap.anheAt (j + e.heap.heap0) := fun hne =>
    hd.order _ (lt_of_le_of_ne hlow (Ne.symm hne)) hhigh
  have hcache := hd.linked.cells _ hlow hhigh
  simp only [Bool.and_eq_true, decide_eq_true_eq]
  exact ⟨⟨⟨hplace, horder⟩, hcache⟩, h.verifyWatcher _⟩

theorem Built.arrayVerify (h : Built e l) {W : Type} {s : Slots W} {key : W → ℕ} (hs : s.Filed key) (pri : ℕ)
    (fam : W → Watcher U) : l.arrayVerify s pri fam = true := by
  unfold Loop.arrayVerify
  refine List.all_eq_true.mpr fun i hi => ?_
  have hi := List.mem_range.mp (List.mem_reverse.mp hi)
  simp only [Bool.and_eq_true, decide_eq_true_eq]
  exact ⟨(hs.cell pri i hi).2, h.verifyWatcher _⟩

/-- `w2` is at half the place of the watcher looked at, so it is another one. -/
theorem Built.verifyFd (h : Built e l) (fd : ℕ) :
    l.verifyFd fd 0 (l.fds.anfds fd).head (l.fds.anfds fd).head = true := by
  have hnodup := h.listed.linked.nodup fd
  have hmem : ∀ w ∈ (l.fds.anfds fd).head, l.fds.active w = 1 ∧ l.fds.fd w = fd := fun w hw => by
    obtain ⟨hact, hfd⟩ := (h.listed.linked.mem fd w).mp hw
    exact ⟨le_antisymm (h.listed.one w) (Nat.one_le_iff_ne_zero.mpr hact), hfd⟩
  generalize (l.fds.anfds fd).head = ws at hnodup hmem
  suffices hall : ∀ n j, ws.length - j = n → l.verifyFd fd j (ws.drop j) (ws.drop (j / 2)) = true from hall _ 0 rfl
  intro n
  induction n with
  | zero =>
    intro j hj
    rw [List.drop_eq_nil_of_le (by omega)]
    rfl
  | succ n ih =>
    intro j hj
    have hlt : j < ws.length := by omega
    have hhalf : j / 2 < ws.length := by omega
    rw [List.drop_eq_getElem_cons hlt]
    have hnext : (if j % 2 = 1 then (ws.drop (j / 2)).tail else ws.drop (j / 2)) = ws.drop ((j + 1) / 2) := by
      split
      · rw [List.tail_drop]
        congr 1
        omega
      · congr 1
        omega
    have hother : j % 2 = 1 → (ws.drop (j / 2)).head? ≠ some ws[j] := by
      intro hodd hc
      rw [List.drop_eq_getElem_cons hhalf, List.head?_cons, Option.some_inj] at hc
      have := (hnodup.getElem_inj_iff).mp hc
      omega
    obtain ⟨hact, hfd⟩ := hmem _ (List.getElem_mem hlt)
    unfold Loop.verifyFd
    rw [hnext, ih (j + 1) (by omega), h.verifyWatcher, decide_eq_true hother, decide_eq_true hact, decide_eq_true hfd]
    rfl

/-- **`ev_verify` returns exactly if the count is not below -1.** -/
theorem Built.verify_iff (h : Built e l) : l.evVerify e = true ↔ -1 ≤ l.activecnt := by
  have harrays := h.indexes.arranged.arrays
  have hfds : ((List.range l.fds.anfdmax).all fun fd =>
      l.verifyFd fd 0 (l.fds.anfds fd).head (l.fds.anfds fd).head) = true :=
    List.all_eq_true.mpr fun fd _ => h.verifyFd fd
  have hidles : ((List.range numpri).reverse.all fun i => l.arrayVerify l.idles i .idle) = true :=
    List.all_eq_true.mpr fun i _ => h.arrayVerify harrays.idles i .idle
  unfold evVerify
  rw [hfds, h.verifyHeap h.indexes.arranged.heaps.1, h.verifyHeap h.indexes.arranged.heaps.2, hidles,
    h.arrayVerify (s := l.forks) harrays.forks, h.arrayVerify h.indexes.cleanups,
    h.arrayVerify (s := l.asyncs) harrays.asyncs, h.arrayVerify (s := l.prepares) harrays.prepares,
    h.arrayVerify (s := l.checks) harrays.checks]
  simp only [Bool.and_true, decide_eq_true_eq]

end

end Loop

end Qev
