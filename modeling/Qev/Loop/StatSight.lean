/-
# No stat watcher goes blind

An active stat watcher learns of changes from its timer, from a watch of its own, or, if
another watcher had the watch removed that they share, from the `IN_IGNORED` that says so,
on which it asks for a new one. What one watcher does keeps this for the others: a watch it
removes is announced. Only a full event queue breaks it, by losing the announcement.
-/
import Qev.Lib.Run
import Qev.Loop.Stat

namespace Qev

open Lib

/-! ### The private timer -/

namespace Loop

section

variable {U T K : Type} [DecidableEq U] [LinearOrder T] [Add T] [Sub T] [Zero T] {e : Env U T} {l : Loop U T K}

/-- The heap of the timers is well formed. -/
def TimersOk (e : Env U T) (l : Loop U T K) : Prop := l.timers.Ok e.heap fun v => l.timers.active v ≠ 0

section

omit [Add T] [Zero T]

/-- `ev_timer_stop` touches the queues, the count and the heap. -/
theorem evTimerStop_eq (h : l.TimersOk e) (w : TimerW U) : ∃ p n d,
    l.evTimerStop e w = { l with pend := p, activecnt := n, timers := d } ∧
      d.Ok e.heap fun v => v ≠ w ∧ l.timers.active v ≠ 0 := by
  unfold evTimerStop
  dsimp only
  by_cases hw : l.timers.active w = 0
  · rw [if_pos (by exact hw)]
    refine ⟨_, _, _, rfl, Deadlines.Ok.congr h fun v => ?_⟩
    exact ⟨fun hv => hv.2, fun hv => ⟨fun he => hv (he ▸ hw), hv⟩⟩
  · rw [if_neg (by exact hw)]
    exact ⟨_, _, _, rfl, (Deadlines.Ok.stop h hw).setAt (fun hn => hn.1 rfl) _⟩

end

/-- `ev_timer_again` leaves the timer active if it has an interval. -/
theorem evTimerAgain_eq (h : l.TimersOk e) (w : TimerW U) : ∃ p n d,
    l.evTimerAgain e w = { l with pend := p, activecnt := n, timers := d } ∧
      d.Ok e.heap fun v => if v = w then l.wRepeat w ≠ 0 else l.timers.active v ≠ 0 := by
  have hclear : (l.clearPending (.timer w)).TimersOk e := h
  unfold evTimerAgain
  dsimp only
  by_cases hw : l.timers.active w ≠ 0
  · rw [if_pos (by exact hw)]
    by_cases hr : l.wRepeat w ≠ 0
    · rw [if_pos (by exact hr)]
      refine ⟨_, _, _, rfl, ?_⟩
      have hadjust := Deadlines.Ok.adjust h hw (l.mnNow + l.wRepeat w)
      rw [← Deadlines.Linked.retime_active (Deadlines.Ok.linked h) hw] at hadjust
      refine hadjust.congr fun v => ?_
      by_cases hv : v = w
      · rw [if_pos hv, hv]
        exact ⟨fun _ => hw, fun _ => hr⟩
      · rw [if_neg hv]
    · rw [if_neg (by exact hr)]
      obtain ⟨p, n, d, heq, hd⟩ := evTimerStop_eq hclear w
      refine ⟨p, n, d, heq, hd.congr fun v => ?_⟩
      by_cases hv : v = w
      · rw [if_pos hv]
        exact ⟨fun h => absurd h hr, fun h => absurd hv h.1⟩
      · rw [if_neg hv]
        exact (and_iff_right hv).symm
  · rw [if_neg (by exact hw)]
    by_cases hr : l.wRepeat w ≠ 0
    · rw [if_pos (by exact hr)]
      unfold evTimerStart
      rw [if_neg (by exact hw)]
      refine ⟨_, _, _, rfl, (((Deadlines.Ok.setAt h hw _).setAt hw _).start hw).congr fun v => ?_⟩
      by_cases hv : v = w
      · rw [if_pos hv]
        exact ⟨fun _ => .inl hv, fun _ => hr⟩
      · rw [if_neg hv]
        exact ⟨.inr, fun h => h.resolve_left hv⟩
    · rw [if_neg (by exact hr)]
      refine ⟨_, _, _, rfl, Deadlines.Ok.congr h fun v => ?_⟩
      by_cases hv : v = w
      · rw [if_pos hv, hv]
        exact ⟨fun h => absurd h hr, fun h => absurd h hw⟩
      · rw [if_neg hv]

end

end Loop

/-! ### What the kernel keeps -/

namespace Infy

/-- A queue has the announcement that a watch is gone. -/
def Announced (queue : List Event) (wd : ℤ) : Prop := ∃ ev ∈ queue, ev.wd = wd ∧ ev.mask &&& inIgnored ≠ 0

theorem Announced.mono {q q' : List Event} {wd : ℤ} (h : Announced q wd) (hq : ∀ ev ∈ q, ev ∈ q') :
    Announced q' wd := by
  obtain ⟨ev, hev, hwd⟩ := h
  exact ⟨ev, hq ev hev, hwd⟩

namespace Kernel

variable {U A : Type} {k k' : Kernel U A} {rest : List Event} {wd : ℤ}

/-- Descriptors are not given twice, and one that is announced gone has no watch. `rest` has been read but not
dealt with. -/
structure Sound (rest : List Event) (k : Kernel U A) : Prop where
  next_pos : 1 ≤ k.next
  live : ∀ wd, k.Live wd → 1 ≤ wd ∧ wd < k.next
  gone : ∀ wd, Announced (rest ++ k.queue) wd → wd < k.next ∧ ¬ k.Live wd

/-- From `k` to `k'`, a watch is kept or announced gone, and no event is lost. -/
structure Tells (k k' : Kernel U A) : Prop where
  queue : ∀ ev ∈ k.queue, ev ∈ k'.queue
  live : ∀ wd, k.Live wd → k'.Live wd ∨ Announced k'.queue wd

theorem Tells.refl (k : Kernel U A) : Tells k k := ⟨fun _ => id, fun _ => .inl⟩

theorem Tells.trans {k'' : Kernel U A} (h : Tells k k') (h' : Tells k' k'') : Tells k k'' := by
  refine ⟨fun ev hev => h'.queue ev (h.queue ev hev), fun wd hwd => ?_⟩
  rcases h.live wd hwd with hwd | hwd
  · exact h'.live wd hwd
  · exact .inr (hwd.mono h'.queue)

/-- A call that leaves the instance alone. -/
theorem Sound.congr (h : Sound rest k) (k' : Kernel U A) (hn : k'.next = k.next) (hw : k'.watches = k.watches)
    (hq : k'.queue = k.queue) :
    Sound rest k' ∧ Tells k k' := by
  have hlive : ∀ wd, k'.Live wd ↔ k.Live wd := fun wd => by
    unfold Live
    rw [hw]
  refine ⟨⟨hn ▸ h.next_pos, fun wd hwd => ?_, fun wd hwd => ?_⟩, ⟨fun ev hev => hq ▸ hev, fun wd hwd => .inl ?_⟩⟩
  · rw [hn]
    exact h.live wd ((hlive wd).mp hwd)
  · rw [hq] at hwd
    rw [hn, hlive]
    exact h.gone wd hwd
  · exact (hlive wd).mpr hwd

/-- `inotify_add_watch`, when it succeeds. -/
theorem addWatch_ok (h : Sound rest k) {path : List Char} (hadd : k.addWatch path = (k', .ok wd)) :
    Sound rest k' ∧ Tells k k' ∧ 1 ≤ wd ∧ k'.Live wd := by
  unfold addWatch at hadd
  dsimp only at hadd
  cases hr : k.resolve k.calls path with
  | error err =>
    rw [hr] at hadd
    cases hadd
  | ok inode =>
    rw [hr] at hadd
    dsimp only at hadd
    cases hf : k.watches.find? fun x => x.2 = inode with
    | some x =>
      rw [hf] at hadd
      cases hadd
      obtain ⟨hs, ht⟩ := h.congr { k with calls := k.calls + 1 } rfl rfl rfl
      have hlive : k.Live x.1 := ⟨x.2, List.mem_of_find?_eq_some hf⟩
      exact ⟨hs, ht, (h.live _ hlive).1, hlive⟩
    | none =>
      rw [hf] at hadd
      cases hadd
      have hlive : ∀ wd, Live { k with
          calls := k.calls + 1, next := k.next + 1, watches := k.watches ++ [(k.next, inode)] } wd ↔
          k.Live wd ∨ wd = k.next := by
        intro wd
        simp [Live, exists_or]
      refine ⟨⟨?_, fun wd hwd => ?_, fun wd hwd => ?_⟩,
        ⟨fun _ => id, fun wd hwd => .inl ((hlive wd).mpr (.inl hwd))⟩, h.next_pos, (hlive _).mpr (.inr rfl)⟩
      · show 1 ≤ k.next + 1
        have := h.next_pos
        omega
      · show 1 ≤ wd ∧ wd < k.next + 1
        have := h.next_pos
        rcases (hlive wd).mp hwd with hwd | hwd
        · have := h.live wd hwd
          omega
        · omega
      · show wd < k.next + 1 ∧ _
        obtain ⟨hlt, hno⟩ := h.gone wd hwd
        refine ⟨by omega, fun hl => ?_⟩
        rcases (hlive wd).mp hl with hl | hl
        · exact hno hl
        · omega

theorem addWatch_error (h : Sound rest k) {path : List Char} {err : Errno}
    (hadd : k.addWatch path = (k', .error err)) :
    Sound rest k' ∧ Tells k k' := by
  unfold addWatch at hadd
  dsimp only at hadd
  cases hr : k.resolve k.calls path with
  | error err =>
    rw [hr] at hadd
    cases hadd
    exact h.congr _ rfl rfl rfl
  | ok inode =>
    rw [hr] at hadd
    dsimp only at hadd
    cases hf : k.watches.find? fun x => x.2 = inode with
    | some x =>
      rw [hf] at hadd
      cases hadd
    | none =>
      rw [hf] at hadd
      cases hadd

/-- A watch that goes is announced. -/
theorem Sound.remove (h : Sound rest k) (hwd : k.Live wd) : Sound rest (k.remove wd) ∧ Tells k (k.remove wd) := by
  have hlive : ∀ wd', (k.remove wd).Live wd' ↔ k.Live wd' ∧ wd' ≠ wd := fun wd' => by
    simp [Live, Kernel.remove]
  have hann : ∀ wd', Announced (k.remove wd).queue wd' ↔ Announced k.queue wd' ∨ wd' = wd := fun wd' => by
    simp only [Announced, Kernel.remove, List.mem_append, List.mem_singleton]
    constructor
    · rintro ⟨ev, hev | rfl, he, hm⟩
      · exact .inl ⟨ev, hev, he, hm⟩
      · exact .inr he.symm
    · rintro (⟨ev, hev, he, hm⟩ | rfl)
      · exact ⟨ev, .inl hev, he, hm⟩
      · exact ⟨_, .inr rfl, rfl, (by decide : inIgnored &&& inIgnored ≠ 0)⟩
  refine ⟨⟨h.next_pos, fun wd' hl => h.live wd' ((hlive wd').mp hl).1, fun wd' ha => ?_⟩,
    fun ev hev => List.mem_append_left _ hev, fun wd' hl => ?_⟩
  · rw [hlive]
    have hcases : Announced (rest ++ k.queue) wd' ∨ wd' = wd := by
      obtain ⟨ev, hev, he⟩ := ha
      rcases List.mem_append.mp hev with hev | hev
      · exact .inl ⟨ev, List.mem_append_left _ hev, he⟩
      · exact ((hann wd').mp ⟨ev, hev, he⟩).imp_left fun h => h.mono fun _ => List.mem_append_right _
    rcases hcases with ha | rfl
    · obtain ⟨hlt, hno⟩ := h.gone wd' ha
      exact ⟨hlt, fun hl => hno hl.1⟩
    · exact ⟨(h.live wd' hwd).2, fun hl => hl.2 rfl⟩
  · by_cases he : wd' = wd
    · exact .inr ((hann wd').mpr (.inr he))
    · exact .inl ((hlive wd').mpr ⟨hl, he⟩)

theorem Sound.rmWatch (h : Sound rest k) (wd : ℤ) : Sound rest (k.rmWatch wd) ∧ Tells k (k.rmWatch wd) := by
  unfold Kernel.rmWatch
  split
  · rename_i hwd
    obtain ⟨x, hx, rfl⟩ := List.mem_map.mp hwd
    exact h.remove ⟨x.2, hx⟩
  · exact ⟨h, .refl k⟩

end Kernel

end Infy

/-! ### One watcher -/

namespace Infy

variable {U T A : Type} [DecidableEq U] [DecidableEq A] [LinearOrder T] [Add T] [Sub T] [Zero T]

/-- The watchers of `S` with a descriptor are in its bucket, once, and no bucket has others. -/
structure Filed (c : Consts T) (S : Set U) (l : Loop U T (Kernel U A)) : Prop where
  mem : ∀ k w, w ∈ l.fsHash k ↔ w ∈ S ∧ 0 ≤ l.wWd w ∧ k = c.slot (l.wWd w)
  nodup : ∀ k, (l.fsHash k).Nodup

/-- The watcher learns of changes. -/
def Sees (rest : List Event) (l : Loop U T (Kernel U A)) (w : U) : Prop :=
  l.timers.active (.stat w) ≠ 0 ∨
    0 ≤ l.wWd w ∧ (l.kernel.Live (l.wWd w) ∨ Announced (rest ++ l.kernel.queue) (l.wWd w))

/-- The heap of the timers, the kernel's side and the buckets are in order, and a private timer that runs has an
interval. -/
structure Fit (e : Env U T) (c : Consts T) (rest : List Event) (S : Set U) (l : Loop U T (Kernel U A)) : Prop where
  timersOk : l.TimersOk e
  armed : ∀ v ∈ S, l.timers.active (.stat v) ≠ 0 → l.wRepeat (.stat v) ≠ 0
  sound : l.kernel.Sound rest
  filed : Filed c S l

/-- From `l` to `m` nothing of the stat watchers outside `P` has changed. -/
structure Keeps (P : Set U) (l m : Loop U T (Kernel U A)) : Prop where
  stats : m.stats = l.stats
  wd : ∀ v ∉ P, m.wWd v = l.wWd v
  timer : ∀ v ∉ P, (m.timers.active (.stat v) ≠ 0 ↔ l.timers.active (.stat v) ≠ 0)
  wRepeat : ∀ v ∉ P, m.wRepeat (.stat v) = l.wRepeat (.stat v)

/-- Nor have their buckets, and the kernel has kept what they go by. -/
structure Moves (P : Set U) (l m : Loop U T (Kernel U A)) : Prop extends Keeps P l m where
  tells : l.kernel.Tells m.kernel
  hash : ∀ k, ∀ v ∉ P, (v ∈ m.fsHash k ↔ v ∈ l.fsHash k)

variable {e : Env U T} {c : Consts T} {rest : List Event} {P Q S : Set U} {w v : U} {l m n : Loop U T (Kernel U A)}

section

omit [DecidableEq U] [LinearOrder T] [Add T] [Sub T] [Zero T] [DecidableEq A]

theorem Keeps.refl (P : Set U) (l : Loop U T (Kernel U A)) : Keeps P l l :=
  ⟨rfl, fun _ _ => rfl, fun _ _ => .rfl, fun _ _ => rfl⟩

theorem Keeps.trans (h : Keeps P l m) (h' : Keeps P m n) : Keeps P l n where
  stats := h'.stats.trans h.stats
  wd v hv := (h'.wd v hv).trans (h.wd v hv)
  timer v hv := (h'.timer v hv).trans (h.timer v hv)
  wRepeat v hv := (h'.wRepeat v hv).trans (h.wRepeat v hv)

theorem Keeps.mono (h : Keeps P l m) (hPQ : P ⊆ Q) : Keeps Q l m where
  stats := h.stats
  wd v hv := h.wd v fun hP => hv (hPQ hP)
  timer v hv := h.timer v fun hP => hv (hPQ hP)
  wRepeat v hv := h.wRepeat v fun hP => hv (hPQ hP)

theorem Moves.refl (P : Set U) (l : Loop U T (Kernel U A)) : Moves P l l :=
  ⟨.refl P l, .refl _, fun _ _ _ => .rfl⟩

theorem Moves.trans (h : Moves P l m) (h' : Moves P m n) : Moves P l n :=
  ⟨h.toKeeps.trans h'.toKeeps, h.tells.trans h'.tells, fun k v hv => (h'.hash k v hv).trans (h.hash k v hv)⟩

theorem Moves.mono (h : Moves P l m) (hPQ : P ⊆ Q) : Moves Q l m :=
  ⟨h.toKeeps.mono hPQ, h.tells, fun k v hv => h.hash k v fun hP => hv (hPQ hP)⟩

/-- A call that leaves the instance alone, and all but the pending queues. -/
theorem Moves.kernel (P : Set U) {k : Kernel U A} {p : Pend (Watcher U)} (ht : l.kernel.Tells k) :
    Moves P l { l with kernel := k, pend := p } :=
  ⟨⟨rfl, fun _ _ => rfl, fun _ _ => .rfl, fun _ _ => rfl⟩, ht, fun _ _ _ => .rfl⟩

/-- What the others have to go by, they keep. -/
theorem Moves.sees (h : Moves P l m) (hv : v ∉ P) (hs : Sees rest l v) : Sees rest m v := by
  rcases hs with ht | ⟨hwd, hs⟩
  · exact .inl ((h.timer v hv).mpr ht)
  · refine .inr ?_
    rw [h.wd v hv]
    refine ⟨hwd, ?_⟩
    rcases hs with hl | ha
    · exact (h.tells.live _ hl).imp_right fun ha => ha.mono fun _ => List.mem_append_right _
    · refine .inr (ha.mono fun ev hev => ?_)
      rw [List.mem_append] at hev ⊢
      exact hev.imp_right (h.tells.queue ev)

end

section

omit [DecidableEq U] [Add T] [Sub T] [DecidableEq A]

theorem Filed.congr (h : Filed c S l) (hwd : ∀ v ∈ S, m.wWd v = l.wWd v) (hh : m.fsHash = l.fsHash) :
    Filed c S m := by
  refine ⟨fun k v => ?_, fun k => ?_⟩
  · rw [hh, h.mem k v]
    exact and_congr_right fun hv => by rw [hwd v hv]
  · rw [hh]
    exact h.nodup k

/-- A watcher without a descriptor is in no bucket. -/
theorem Filed.diff (h : Filed c S l) (hwd : l.wWd w < 0) : Filed c (S \ {w}) l := by
  refine ⟨fun k v => (h.mem k v).trans (and_congr_left fun hv => ⟨fun hS => ⟨hS, ?_⟩, fun hS => hS.1⟩), h.nodup⟩
  rintro rfl
  omega

theorem Filed.skip (h : Filed c S l) (hw : w ∉ S) (hwd : l.wWd w < 0) : Filed c (insert w S) l := by
  refine ⟨fun k v => (h.mem k v).trans (and_congr_left fun hv => ⟨Or.inr, fun hS => hS.resolve_left ?_⟩), h.nodup⟩
  rintro rfl
  omega

end

section

omit [Add T] [Sub T] [DecidableEq A]

/-- A watcher leaves its bucket. -/
theorem Filed.del {k : ℕ} (h : Filed c S l) (hw : w ∈ l.fsHash k) : Filed c (S \ {w}) (l.fsDel w k) := by
  have hslot := ((h.mem k w).mp hw).2.2
  refine ⟨fun j v => ?_, fun j => ?_⟩
  · show v ∈ Function.update l.fsHash k ((l.fsHash k).erase w) j ↔ v ∈ S \ {w} ∧ 0 ≤ l.wWd v ∧ j = c.slot (l.wWd v)
    rw [Set.mem_sdiff_singleton, and_right_comm, ← h.mem j v]
    by_cases hj : j = k
    · subst hj
      rw [Function.update_self, (h.nodup j).mem_erase_iff]
      exact and_comm
    · rw [Function.update_of_ne hj]
      refine (and_iff_left_of_imp fun hv he => hj ?_).symm
      exact ((h.mem j v).mp hv).2.2.trans (he ▸ hslot.symm)
  · show (Function.update l.fsHash k ((l.fsHash k).erase w) j).Nodup
    by_cases hj : j = k
    · subst hj
      rw [Function.update_self]
      exact (h.nodup j).erase w
    · rw [Function.update_of_ne hj]
      exact h.nodup j

end

section

omit [DecidableEq U] [Add T] [Sub T] [DecidableEq A]

/-- A watcher enters its bucket. -/
theorem Filed.add (h : Filed c S l) (hw : w ∉ S) (hwd : 0 ≤ l.wWd w) :
    Filed c (insert w S) (l.fsAdd w (c.slot (l.wWd w))) := by
  refine ⟨fun j v => ?_, fun j => ?_⟩
  · show v ∈ Function.update l.fsHash (c.slot (l.wWd w)) (w :: l.fsHash (c.slot (l.wWd w))) j ↔
      v ∈ insert w S ∧ 0 ≤ l.wWd v ∧ j = c.slot (l.wWd v)
    rw [Set.mem_insert_iff, or_and_right, ← h.mem j v]
    by_cases hj : j = c.slot (l.wWd w)
    · subst hj
      rw [Function.update_self, List.mem_cons]
      refine or_congr_left ⟨?_, fun hv => hv.1⟩
      rintro rfl
      exact ⟨rfl, hwd, rfl⟩
    · rw [Function.update_of_ne hj]
      refine (or_iff_right ?_).symm
      rintro ⟨rfl, -, hslot⟩
      exact hj hslot
  · show (Function.update l.fsHash (c.slot (l.wWd w)) (w :: l.fsHash (c.slot (l.wWd w))) j).Nodup
    by_cases hj : j = c.slot (l.wWd w)
    · subst hj
      rw [Function.update_self]
      exact List.nodup_cons.mpr ⟨fun hmem => hw ((h.mem _ w).mp hmem).1, h.nodup _⟩
    · rw [Function.update_of_ne hj]
      exact h.nodup j

theorem interval_ne {default : T} (hd : 0 < default) (l : Loop U T (Kernel U A)) (w : U) :
    l.interval w default ≠ 0 := by
  unfold Loop.interval
  split
  · assumption
  · exact hd.ne'

end

section

omit [LinearOrder T] [Add T] [Sub T] [Zero T] [DecidableEq A]

theorem infyParents_eq (d : ℕ) (path : List Char) (h : l.kernel.Sound rest) (hwd : l.wWd w < 0) : ∃ k wd,
    Loop.infyParents w d path l = { l with kernel := k, wWd := Function.update l.wWd w wd } ∧ k.Sound rest ∧
      l.kernel.Tells k ∧ (0 ≤ wd → k.Live wd) := by
  induction d generalizing l path with
  | zero =>
    refine ⟨l.kernel, l.wWd w, ?_, h, .refl _, fun hn => absurd hwd (not_lt.mpr hn)⟩
    rw [Function.update_eq_self]
    rfl
  | succ d ih =>
    unfold Loop.infyParents
    cases parent path with
    | none =>
      refine ⟨l.kernel, l.wWd w, ?_, h, .refl _, fun hn => absurd hwd (not_lt.mpr hn)⟩
      rw [Function.update_eq_self]
    | some path =>
      dsimp only
      rcases hadd : l.kernel.addWatch path with ⟨k, err | wd⟩
      · obtain ⟨hk, ht⟩ := Kernel.addWatch_error h hadd
        obtain ⟨k', wd, heq, hk', ht', hl⟩ := ih (l := { l with kernel := k }) path hk hwd
        cases err with
        | other =>
          refine ⟨k, l.wWd w, ?_, hk, ht, fun hn => absurd hwd (not_lt.mpr hn)⟩
          rw [Function.update_eq_self]
        | enoent => exact ⟨k', wd, heq, hk', ht.trans ht', hl⟩
        | eacces => exact ⟨k', wd, heq, hk', ht.trans ht', hl⟩
      · obtain ⟨hk, ht, -, hl⟩ := Kernel.addWatch_ok h hadd
        exact ⟨k, wd, rfl, hk, ht, fun _ => hl⟩

end

section

omit [Add T] [Sub T] [DecidableEq A]

/-- `infy_add` asks for watches until it gets one or gives up, and sets the interval of the timer unless the
watch is enough. -/
theorem infyWatch_eq (c : Consts T) (h : l.kernel.Sound rest) (w : U) : ∃ k wd r,
    l.infyWatch c w =
      { l with kernel := k, wWd := Function.update l.wWd w wd, wRepeat := Function.update l.wRepeat (.stat w) r } ∧
      k.Sound rest ∧ l.kernel.Tells k ∧ (0 ≤ wd → k.Live wd) ∧ (r ≠ 0 ∨ 0 ≤ wd) := by
  unfold Loop.infyWatch
  dsimp only
  rcases hadd : l.kernel.addWatch (l.kernel.path w) with ⟨k, err | wd⟩
  · obtain ⟨hk, ht⟩ := Kernel.addWatch_error h hadd
    have hr := interval_ne c.def_pos l w
    let m : Loop U T (Kernel U A) :=
      (({ l with kernel := k } : Loop U T (Kernel U A)).setWd w (-1)).setRepeat w (l.interval w c.defStat)
    have hm : m.wWd w = -1 := Function.update_self ..
    dsimp only
    split
    · obtain ⟨k', wd, heq, hk', ht', hl⟩ :=
        infyParents_eq (l := m) (w := w) (l.kernel.path w).length (l.kernel.path w) hk (by omega)
      refine ⟨k', wd, l.interval w c.defStat, heq.trans ?_, hk', ht.trans ht', hl, .inl hr⟩
      have hwd : Function.update m.wWd w wd = Function.update l.wWd w wd := Function.update_idem ..
      rw [hwd]
      rfl
    · exact ⟨k, -1, l.interval w c.defStat, rfl, hk, ht, fun hn => absurd hn (by decide), .inl hr⟩
  · obtain ⟨hk, ht, hpos, hl⟩ := Kernel.addWatch_ok h hadd
    dsimp only
    split
    · exact ⟨k, wd, l.interval w c.defStat, rfl, hk, ht, fun _ => hl, .inl (interval_ne c.def_pos l w)⟩
    · obtain ⟨hk', ht'⟩ := hk.congr { k with calls := k.calls + 1 } rfl rfl rfl
      split
      · exact ⟨_, wd, 0, rfl, hk', ht.trans ht', fun _ => hl, .inr (by omega)⟩
      · exact ⟨_, wd, l.interval w c.nfsStat, rfl, hk', ht.trans ht', fun _ => hl, .inl (interval_ne c.nfs_pos l w)⟩

end

/-- From `l` to `m` the private timer of `w` has been re-armed: it runs if it has an interval. -/
def Rearmed (e : Env U T) (w : U) (l m : Loop U T (Kernel U A)) : Prop :=
  ∃ p k d, m = { l with pend := p, activecnt := k, timers := d } ∧
    d.Ok e.heap fun v => if v = .stat w then l.wRepeat (.stat w) ≠ 0 else l.timers.active v ≠ 0

section

omit [DecidableEq A]

theorem rearmed_evTimerAgain (h : l.TimersOk e) (w : U) : Rearmed e w l (l.evTimerAgain e (.stat w)) :=
  Loop.evTimerAgain_eq h (.stat w)

theorem rearmed_statRearm (h : l.TimersOk e) (w : U) : Rearmed e w l (l.statRearm e w) := by
  have hagain : Rearmed e w l ((if l.timers.active (.stat w) ≠ 0 then l.evRef else l).evTimerAgain e (.stat w)) := by
    split
    · exact rearmed_evTimerAgain (l := l.evRef) h w
    · exact rearmed_evTimerAgain h w
  obtain ⟨p, n, d, heq, hd⟩ := hagain
  unfold Loop.statRearm
  dsimp only
  rw [heq]
  split
  · exact ⟨p, n - 1, d, rfl, hd⟩
  · exact ⟨p, n, d, rfl, hd⟩

end

/-- Re-arming the timer of `w` is all that has happened. -/
structure Rearm (e : Env U T) (w : U) (l m : Loop U T (Kernel U A)) : Prop extends Moves {w} l m where
  timersOk : m.TimersOk e
  wds : m.wWd = l.wWd
  hashes : m.fsHash = l.fsHash
  side : m.kernel = l.kernel
  intervals : m.wRepeat = l.wRepeat
  runs : m.timers.active (.stat w) ≠ 0 ↔ l.wRepeat (.stat w) ≠ 0

section

omit [Add T] [Sub T] [DecidableEq A]

theorem Rearmed.rearm (h : Rearmed e w l m) : Rearm e w l m := by
  obtain ⟨p, k, d, rfl, hd⟩ := h
  refine ⟨⟨⟨rfl, fun _ _ => rfl, fun v hv => ?_, fun _ _ => rfl⟩, .refl _, fun _ _ _ => .rfl⟩, hd.self, rfl, rfl,
    rfl, rfl, ?_⟩
  · refine (hd.active_iff (.stat v)).trans ?_
    rw [if_neg fun he => hv (TimerW.stat.inj he)]
  · refine (hd.active_iff (.stat w)).trans ?_
    rw [if_pos rfl]

/-- `infy_add` up to the hash, for a watcher in no bucket. -/
theorem Fit.infyWatch (h : Fit e c rest S l) (hw : w ∉ S) :
    Fit e c rest S (l.infyWatch c w) ∧ Moves {w} l (l.infyWatch c w) ∧
      (0 ≤ (l.infyWatch c w).wWd w → (l.infyWatch c w).kernel.Live ((l.infyWatch c w).wWd w)) ∧
      ((l.infyWatch c w).wRepeat (.stat w) ≠ 0 ∨ 0 ≤ (l.infyWatch c w).wWd w) := by
  obtain ⟨k, wd, r, heq, hk, ht, hlive, hpolls⟩ := infyWatch_eq c h.sound w
  have hne : ∀ v ≠ w, Function.update l.wWd w wd v = l.wWd v := fun v hv => Function.update_of_ne hv ..
  have hrep : ∀ v ≠ w, Function.update l.wRepeat (.stat w) r (.stat v) = l.wRepeat (.stat v) := fun v hv =>
    Function.update_of_ne (fun he => hv (TimerW.stat.inj he)) ..
  have hS : ∀ v ∈ S, v ≠ w := fun v hv => ne_of_mem_of_not_mem hv hw
  rw [heq]
  refine ⟨⟨h.timersOk, fun v hv => ?_, hk, h.filed.congr (fun v hv => hne v (hS v hv)) rfl⟩,
    ⟨⟨rfl, hne, fun _ _ => .rfl, hrep⟩, ht, fun _ _ _ => .rfl⟩, ?_, ?_⟩
  · show _ → Function.update l.wRepeat (.stat w) r (.stat v) ≠ 0
    rw [hrep v (hS v hv)]
    exact h.armed v hv
  · show 0 ≤ Function.update l.wWd w wd w → k.Live (Function.update l.wWd w wd w)
    rw [Function.update_self]
    exact hlive
  · show Function.update l.wRepeat (.stat w) r (.stat w) ≠ 0 ∨ 0 ≤ Function.update l.wWd w wd w
    rw [Function.update_self, Function.update_self]
    exact hpolls

end

section

omit [DecidableEq U] [Add T] [Sub T] [DecidableEq A]

/-- The watcher enters the bucket of its descriptor, if it has one. -/
theorem Filed.file (h : Filed c S l) (hw : w ∉ S) {m : Loop U T (Kernel U A)}
    (hm : m = if 0 ≤ l.wWd w then l.fsAdd w (c.slot (l.wWd w)) else l) :
    Filed c (insert w S) m ∧ Moves {w} l m ∧ m.timers = l.timers ∧ m.wWd = l.wWd ∧ m.kernel = l.kernel ∧
      m.wRepeat = l.wRepeat := by
  subst hm
  split
  · rename_i hwd
    refine ⟨h.add hw hwd,
      ⟨⟨rfl, fun _ _ => rfl, fun _ _ => .rfl, fun _ _ => rfl⟩, .refl _, fun k v hv => ?_⟩, rfl, rfl, rfl, rfl⟩
    show v ∈ Function.update l.fsHash (c.slot (l.wWd w)) (w :: l.fsHash (c.slot (l.wWd w))) k ↔ v ∈ l.fsHash k
    by_cases hk : k = c.slot (l.wWd w)
    · subst hk
      rw [Function.update_self, List.mem_cons]
      exact or_iff_right hv
    · rw [Function.update_of_ne hk]
  · rename_i hwd
    exact ⟨h.skip hw (by omega), .refl _ l, rfl, rfl, rfl, rfl⟩

end

section

omit [Add T] [Sub T] [DecidableEq A]

/-- The timer of the watcher that has entered its bucket is re-armed. -/
theorem Fit.enter (h : Fit e c rest S l) (hm : Filed c (insert w S) m) (ht : m.timers = l.timers)
    (hk : m.kernel = l.kernel) (hr : m.wRepeat = l.wRepeat) (hn : Rearm e w m n) : Fit e c rest (insert w S) n := by
  refine ⟨hn.timersOk, fun v hv hactive => ?_, ?_, hm.congr (fun _ _ => by rw [hn.wds]) hn.hashes⟩
  · by_cases hvw : v = w
    · subst hvw
      rw [hn.intervals]
      exact hn.runs.mp hactive
    · rw [hn.intervals, hr]
      refine h.armed v (hv.resolve_left hvw) ?_
      rw [← ht]
      exact (hn.timer v hvw).mp hactive
  · rw [hn.side, hk]
    exact h.sound

end

section

omit [DecidableEq A]

/-- `infy_add` for a watcher in no bucket. -/
theorem Fit.infyAdd (h : Fit e c rest S l) (hw : w ∉ S) :
    Fit e c rest (insert w S) (l.infyAdd e c w) ∧ Moves {w} l (l.infyAdd e c w) ∧ Sees rest (l.infyAdd e c w) w := by
  obtain ⟨hasked, hmoves, hlive, hpolls⟩ := h.infyWatch hw
  obtain ⟨m, hm⟩ : ∃ m, m = if 0 ≤ (l.infyWatch c w).wWd w then
      (l.infyWatch c w).fsAdd w (c.slot ((l.infyWatch c w).wWd w)) else l.infyWatch c w := ⟨_, rfl⟩
  obtain ⟨hfiled, hmoves', ht, hwd, hk, hr⟩ := hasked.filed.file hw hm
  have hok : m.TimersOk e := by
    unfold Loop.TimersOk
    rw [ht]
    exact hasked.timersOk
  have hn := (rearmed_statRearm hok w).rearm
  unfold Loop.infyAdd
  dsimp only
  rw [← hm]
  refine ⟨hasked.enter hfiled ht hk hr hn, (hmoves.trans hmoves').trans hn.toMoves, ?_⟩
  unfold Sees
  rw [hn.runs, hr, hn.wds, hwd, hn.side, hk]
  rcases hpolls with hpolls | hge
  · exact .inl hpolls
  · exact .inr ⟨hge, .inl (hlive hge)⟩

end

section

omit [Add T] [Sub T] [DecidableEq A]

/-- `infy_del`. -/
theorem Fit.infyDel (h : Fit e c rest S l) (hw : w ∈ S) :
    Fit e c rest (S \ {w}) (l.infyDel c w) ∧ Moves {w} l (l.infyDel c w) ∧ (l.infyDel c w).wWd w < 0 := by
  unfold Loop.infyDel
  dsimp only
  split
  · rename_i hwd
    exact ⟨⟨h.timersOk, fun v hv => h.armed v hv.1, h.sound, h.filed.diff hwd⟩, .refl _ l, hwd⟩
  · rename_i hwd
    have hmem : w ∈ l.fsHash (c.slot (l.wWd w)) := (h.filed.mem _ w).mpr ⟨hw, by omega, rfl⟩
    have hne : ∀ v ≠ w, Function.update l.wWd w (-2) v = l.wWd v := fun v hv => Function.update_of_ne hv ..
    obtain ⟨hs, ht⟩ := h.sound.rmWatch (l.wWd w)
    refine ⟨⟨h.timersOk, fun v hv => h.armed v hv.1, hs, (h.filed.del hmem).congr (fun v hv => hne v hv.2) rfl⟩,
      ⟨⟨rfl, hne, fun _ _ => .rfl, fun _ _ => rfl⟩, ht, fun k v hv => ?_⟩, ?_⟩
    · show v ∈ Function.update l.fsHash (c.slot (l.wWd w)) ((l.fsHash (c.slot (l.wWd w))).erase w) k ↔ v ∈ l.fsHash k
      by_cases hk : k = c.slot (l.wWd w)
      · subst hk
        rw [Function.update_self]
        exact List.mem_erase_of_ne hv
      · rw [Function.update_of_ne hk]
    · show Function.update l.wWd w (-2) w < 0
      rw [Function.update_self]
      decide

/-- What looking at the path changes is nobody's. -/
theorem Fit.evStatStat (h : Fit e c rest S l) (w : U) :
    Fit e c rest S (l.evStatStat w) ∧ Moves ∅ l (l.evStatStat w) := by
  obtain ⟨hs, ht⟩ := h.sound.congr (l.evStatStat w).kernel rfl rfl rfl
  exact ⟨⟨h.timersOk, h.armed, hs, h.filed.congr (fun _ _ => rfl) rfl⟩, Moves.kernel ∅ ht⟩

end

/-- The path of `w` is looked at again, which may give it a new watch. -/
theorem Fit.statTimerLook (h : Fit e c rest S l) (hw : w ∈ S) :
    Fit e c rest S (l.statTimerLook e c w).1 ∧ Moves {w} l (l.statTimerLook e c w).1 ∧
      (Sees rest l w → Sees rest (l.statTimerLook e c w).1 w) := by
  obtain ⟨hfit, hmoves⟩ := h.evStatStat w
  have hsees : Sees rest l w → Sees rest (l.evStatStat w) w := hmoves.sees (Set.notMem_empty w)
  unfold Loop.statTimerLook
  dsimp only
  split
  · let m : Loop U T (Kernel U A) := { l.evStatStat w with
      kernel := { (l.evStatStat w).kernel with
        prev := Function.update (l.evStatStat w).kernel.prev w (l.kernel.attr w) } }
    obtain ⟨hs, ht⟩ := hfit.sound.congr m.kernel rfl rfl rfl
    have hm : Fit e c rest S m := ⟨hfit.timersOk, hfit.armed, hs, hfit.filed.congr (fun _ _ => rfl) rfl⟩
    have hlm : Moves {w} l m := (hmoves.mono (Set.empty_subset _)).trans (.kernel _ ht)
    have hnew : ∃ n, n = (if 0 ≤ m.fsFd then ((m.infyDel c w).infyAdd e c w).evStatStat w else m) ∧
        Fit e c rest S n ∧ Moves {w} l n ∧ (Sees rest l w → Sees rest n w) := by
      refine ⟨_, rfl, ?_⟩
      split
      · obtain ⟨hd, hmd, -⟩ := hm.infyDel hw
        obtain ⟨ha, hma, hs⟩ := hd.infyAdd (fun hn => hn.2 rfl)
        rw [Set.insert_sdiff_self_of_mem hw] at ha
        obtain ⟨hf, hmf⟩ := ha.evStatStat w
        exact ⟨hf, ((hlm.trans hmd).trans hma).trans (hmf.mono (Set.empty_subset _)),
          fun _ => hmf.sees (Set.notMem_empty w) hs⟩
      · exact ⟨hm, hlm, hsees⟩
    obtain ⟨n, hn, hfit⟩ := hnew
    show Fit e c rest S (if 0 ≤ m.fsFd then _ else m) ∧ _
    rw [← hn]
    exact hfit
  · exact ⟨hfit, hmoves.mono (Set.empty_subset _), hsees⟩

theorem Fit.statTimerCb (h : Fit e c rest S l) (hw : w ∈ S) :
    Fit e c rest S (l.statTimerCb e c w) ∧ Moves {w} l (l.statTimerCb e c w) ∧
      (Sees rest l w → Sees rest (l.statTimerCb e c w) w) := by
  obtain ⟨hfit, hmoves, hsees⟩ := h.statTimerLook hw
  unfold Loop.statTimerCb
  generalize l.statTimerLook e c w = x at hfit hmoves hsees
  obtain ⟨n, b⟩ := x
  cases b with
  | true =>
    exact ⟨⟨hfit.timersOk, hfit.armed, hfit.sound, hfit.filed.congr (fun _ _ => rfl) rfl⟩,
      hmoves.trans (.kernel _ (.refl _)), hsees⟩
  | false => exact ⟨hfit, hmoves, hsees⟩

end Infy

end Qev
