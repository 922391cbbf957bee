/-
# Events and forks for stat watchers

`infy_wd` walks a bucket and moves watchers as it goes, `infy_fork` empties the buckets one
by one and fills them again. In either walk the watchers still to come are where they were,
and those passed have a watch or poll.
-/
import Qev.Loop.StatSight

namespace Qev

namespace Infy

variable {U T A : Type} [DecidableEq U] [DecidableEq A] [LinearOrder T] [Add T] [Sub T] [Zero T]
  {e : Env U T} {c : Consts T} {rest : List Event} {S : Set U} {w v : U} {l m n : Loop U T (Kernel U A)}

/-! ### Reading events -/

/-- `infy_wd` for a watcher of the bucket. If its watch is gone, it has asked for another. -/
theorem Fit.infyWdOne {slot : ℕ} (h : Fit e c rest S l) (hw : w ∈ l.fsHash slot) (wd : ℤ) (mask : BitVec 32) :
    Fit e c rest S (Loop.infyWdOne e c slot wd mask l w) ∧ Moves {w} l (Loop.infyWdOne e c slot wd mask l w) ∧
      (Sees rest l w ∨ l.wWd w = wd ∧ Loop.readds mask → Sees rest (Loop.infyWdOne e c slot wd mask l w) w) := by
  have hS : w ∈ S := ((h.filed.mem slot w).mp hw).1
  unfold Loop.infyWdOne
  split
  · have hagain : ∃ m, m = (if Loop.readds mask then ((l.fsDel w slot).setWd w (-1)).infyAdd e c w else l) ∧
        Fit e c rest S m ∧ Moves {w} l m ∧ (Sees rest l w ∨ l.wWd w = wd ∧ Loop.readds mask → Sees rest m w) := by
      refine ⟨_, rfl, ?_⟩
      split
      · have hne : ∀ v ≠ w, Function.update l.wWd w (-1) v = l.wWd v := fun v hv => Function.update_of_ne hv ..
        have hout : Fit e c rest (S \ {w}) ((l.fsDel w slot).setWd w (-1)) :=
          ⟨h.timersOk, fun v hv => h.armed v hv.1, h.sound, (h.filed.del hw).congr (fun v hv => hne v hv.2) rfl⟩
        have hmoves : Moves {w} l ((l.fsDel w slot).setWd w (-1)) := by
          refine ⟨⟨rfl, hne, fun _ _ => .rfl, fun _ _ => rfl⟩, .refl _, fun k v hv => ?_⟩
          show v ∈ Function.update l.fsHash slot ((l.fsHash slot).erase w) k ↔ v ∈ l.fsHash k
          by_cases hk : k = slot
          · subst hk
            rw [Function.update_self]
            exact List.mem_erase_of_ne hv
          · rw [Function.update_of_ne hk]
        obtain ⟨ha, hma, hs⟩ := hout.infyAdd (fun hn => hn.2 rfl)
        rw [Set.insert_sdiff_self_of_mem hS] at ha
        exact ⟨ha, hmoves.trans hma, fun _ => hs⟩
      · rename_i hno
        exact ⟨h, .refl _ l, fun hs => hs.resolve_right fun hr => hno hr.2⟩
    obtain ⟨m, hm, hfit, hmoves, hsees⟩ := hagain
    dsimp only
    rw [← hm]
    obtain ⟨hfit', hmoves', hsees'⟩ := hfit.statTimerCb hS
    exact ⟨hfit', hmoves.trans hmoves', fun hs => hsees' (hsees hs)⟩
  · rename_i hno
    exact ⟨h, .refl _ l, fun hs => hs.resolve_right fun hr => hno (.inl hr.1)⟩

/-- Along a bucket. Those still to come are where they were. -/
theorem Fit.walk {slot : ℕ} {wd : ℤ} {mask : BitVec 32} (ws : List U) (hnodup : ws.Nodup) (h : Fit e c rest S l)
    (hws : ∀ v ∈ ws, v ∈ l.fsHash slot) :
    Fit e c rest S (ws.foldl (Loop.infyWdOne e c slot wd mask) l) ∧
      Moves S l (ws.foldl (Loop.infyWdOne e c slot wd mask) l) ∧
      ∀ v, Sees rest l v ∨ v ∈ ws ∧ l.wWd v = wd ∧ Loop.readds mask →
        Sees rest (ws.foldl (Loop.infyWdOne e c slot wd mask) l) v := by
  induction ws generalizing l with
  | nil => exact ⟨h, .refl _ l, fun v hv => hv.resolve_right fun hn => List.not_mem_nil hn.1⟩
  | cons w ws ih =>
    rw [List.nodup_cons] at hnodup
    have hS : w ∈ S := ((h.filed.mem slot w).mp (hws w List.mem_cons_self)).1
    obtain ⟨hfit, hmoves, hvisit⟩ := h.infyWdOne (hws w List.mem_cons_self) wd mask
    have hstay : ∀ v ∈ ws, v ∈ (Loop.infyWdOne e c slot wd mask l w).fsHash slot := fun v hv =>
      (hmoves.hash slot v fun he => hnodup.1 (he ▸ hv)).mpr (hws v (List.mem_cons_of_mem w hv))
    obtain ⟨hfit', hmoves', hsees⟩ := ih hnodup.2 hfit hstay
    refine ⟨hfit', (hmoves.mono (Set.singleton_subset_iff.mpr hS)).trans hmoves', fun v hv => hsees v ?_⟩
    by_cases hvw : v = w
    · subst hvw
      exact .inl (hvisit (hv.imp_right fun hn => hn.2))
    · rcases hv with hs | ⟨hmem, hwd, hmask⟩
      · exact .inl (hmoves.sees hvw hs)
      · exact .inr ⟨(List.mem_cons.mp hmem).resolve_left hvw, (hmoves.wd v hvw).trans hwd, hmask⟩

theorem Fit.infyWdSlot (h : Fit e c rest S l) (wd : ℤ) (mask : BitVec 32) (slot : ℕ) :
    Fit e c rest S (Loop.infyWdSlot e c wd mask l slot) ∧ Moves S l (Loop.infyWdSlot e c wd mask l slot) ∧
      ∀ v, Sees rest l v ∨ v ∈ l.fsHash slot ∧ l.wWd v = wd ∧ Loop.readds mask →
        Sees rest (Loop.infyWdSlot e c wd mask l slot) v :=
  h.walk (l.fsHash slot) (h.filed.nodup slot) fun _ hv => hv

theorem Fit.infyWdSlots (slots : List ℕ) (h : Fit e c rest S l) (wd : ℤ) (mask : BitVec 32) :
    Fit e c rest S (slots.foldl (Loop.infyWdSlot e c wd mask) l) ∧
      Moves S l (slots.foldl (Loop.infyWdSlot e c wd mask) l) ∧
      ∀ v, Sees rest l v → Sees rest (slots.foldl (Loop.infyWdSlot e c wd mask) l) v := by
  induction slots generalizing l with
  | nil => exact ⟨h, .refl _ l, fun _ => id⟩
  | cons slot slots ih =>
    obtain ⟨hfit, hmoves, hsees⟩ := h.infyWdSlot wd mask slot
    obtain ⟨hfit', hmoves', hsees'⟩ := ih hfit
    exact ⟨hfit', hmoves.trans hmoves', fun v hv => hsees' v (hsees v (.inl hv))⟩

section

omit [DecidableEq U] [DecidableEq A] [LinearOrder T] [Add T] [Sub T] [Zero T]

theorem Sound.tail {k : Kernel U A} {ev : Event} (h : k.Sound (ev :: rest)) : k.Sound rest :=
  ⟨h.next_pos, h.live, fun wd ha => h.gone wd (ha.mono fun _ => List.mem_cons_of_mem ev)⟩

theorem readds_of_ignored {mask : BitVec 32} (h : mask &&& inIgnored ≠ 0) : Loop.readds mask := by
  refine fun hz => h ?_
  calc mask &&& inIgnored = mask &&& ((inIgnored ||| inUnmount ||| inDeleteSelf) &&& inIgnored) := by
        rw [(by decide : (inIgnored ||| inUnmount ||| inDeleteSelf) &&& inIgnored = inIgnored)]
    _ = mask &&& (inIgnored ||| inUnmount ||| inDeleteSelf) &&& inIgnored := (BitVec.and_assoc ..).symm
    _ = 0 := by rw [hz]; exact BitVec.zero_and

/-- An event that is at hand announces that the watch of `v` is gone, or `v` does not go by it. -/
theorem Sees.cases {ev : Event} (h : Sees (ev :: rest) l v) :
    Sees rest l v ∨ 0 ≤ l.wWd v ∧ l.wWd v = ev.wd ∧ Loop.readds ev.mask := by
  rcases h with ht | ⟨hwd, hl | ⟨ev', hmem, he, hmask⟩⟩
  · exact .inl (.inl ht)
  · exact .inl (.inr ⟨hwd, .inl hl⟩)
  · rw [List.cons_append, List.mem_cons] at hmem
    rcases hmem with rfl | hmem
    · exact .inr ⟨hwd, he.symm, readds_of_ignored hmask⟩
    · exact .inl (.inr ⟨hwd, .inr ⟨ev', hmem, he, hmask⟩⟩)

end

/-- An event is dealt with. -/
theorem Fit.infyWd {ev : Event} (h : Fit e c (ev :: rest) S l) :
    Fit e c rest S (Loop.infyWd e c l ev) ∧ Moves S l (Loop.infyWd e c l ev) ∧
      ∀ v ∈ S, Sees (ev :: rest) l v → Sees rest (Loop.infyWd e c l ev) v := by
  have hfit : Fit e c rest S l := ⟨h.timersOk, h.armed, Sound.tail h.sound, h.filed⟩
  unfold Loop.infyWd
  split
  · rename_i hneg
    obtain ⟨hfit', hmoves, hsees⟩ := hfit.infyWdSlots (List.range c.hashsize) ev.wd ev.mask
    exact ⟨hfit', hmoves, fun v _ hv => hsees v (hv.cases.resolve_right fun hn => by omega)⟩
  · obtain ⟨hfit', hmoves, hsees⟩ := hfit.infyWdSlot ev.wd ev.mask (c.slot ev.wd)
    refine ⟨hfit', hmoves, fun v hS hv => hsees v (hv.cases.imp_right fun hn => ⟨?_, hn.2⟩)⟩
    exact (h.filed.mem _ v).mpr ⟨hS, hn.1, by rw [hn.2.1]⟩

theorem Fit.events (evs : List Event) (h : Fit e c evs S l) :
    Fit e c [] S (evs.foldl (Loop.infyWd e c) l) ∧ Moves S l (evs.foldl (Loop.infyWd e c) l) ∧
      ∀ v ∈ S, Sees evs l v → Sees [] (evs.foldl (Loop.infyWd e c) l) v := by
  induction evs generalizing l with
  | nil => exact ⟨h, .refl _ l, fun _ _ => id⟩
  | cons ev evs ih =>
    obtain ⟨hfit, hmoves, hsees⟩ := h.infyWd
    obtain ⟨hfit', hmoves', hsees'⟩ := ih hfit
    exact ⟨hfit', hmoves.trans hmoves', fun v hS hv => hsees' v hS (hsees v hS hv)⟩

/-- `infy_cb`: an event that is read is dealt with. -/
theorem Fit.infyCb (h : Fit e c [] S l) (d : ℕ) : Fit e c [] S (l.infyCb e c d) ∧ Keeps S l (l.infyCb e c d) ∧
    ∀ v ∈ S, Sees [] l v → Sees [] (l.infyCb e c d) v := by
  let m : Loop U T (Kernel U A) := { l with kernel := { l.kernel with queue := l.kernel.queue.drop d } }
  have hq : l.kernel.queue.take d ++ m.kernel.queue = l.kernel.queue := List.take_append_drop ..
  have hm : Fit e c (l.kernel.queue.take d) S m := by
    refine ⟨h.timersOk, h.armed, ⟨h.sound.next_pos, h.sound.live, fun wd ha => ?_⟩,
      h.filed.congr (fun _ _ => rfl) rfl⟩
    rw [hq] at ha
    exact h.sound.gone wd ha
  obtain ⟨hfit, hmoves, hsees⟩ := hm.events
  refine ⟨hfit, ⟨hmoves.stats, hmoves.wd, hmoves.timer, hmoves.wRepeat⟩, fun v hS hv => hsees v hS ?_⟩
  unfold Sees
  rw [hq]
  exact hv

/-! ### A fork -/

section

omit [DecidableEq A]

/-- `infy_fork` for a watcher that has been taken from its bucket. -/
theorem Fit.infyForkOne (h : Fit e c rest S l) (hw : w ∉ S) : Fit e c rest (insert w S) (Loop.infyForkOne e c l w) ∧
    Moves {w} l (Loop.infyForkOne e c l w) ∧ Sees rest (Loop.infyForkOne e c l w) w := by
  have hne : ∀ v ≠ w, (l.setWd w (-1)).wWd v = l.wWd v := fun v hv => Function.update_of_ne hv ..
  have hS : ∀ v ∈ S, v ≠ w := fun v hv => ne_of_mem_of_not_mem hv hw
  have hfit : Fit e c rest S (l.setWd w (-1)) :=
    ⟨h.timersOk, h.armed, h.sound, h.filed.congr (fun v hv => hne v (hS v hv)) rfl⟩
  have hmoves : Moves {w} l (l.setWd w (-1)) :=
    ⟨⟨rfl, hne, fun _ _ => .rfl, fun _ _ => rfl⟩, .refl _, fun _ _ _ => .rfl⟩
  unfold Loop.infyForkOne
  dsimp only
  split
  · obtain ⟨ha, hma, hs⟩ := hfit.infyAdd hw
    exact ⟨ha, hmoves.trans hma, hs⟩
  · let r := (l.setWd w (-1)).interval w c.defStat
    have hrep : ∀ v ≠ w, ((l.setWd w (-1)).setRepeat w r).wRepeat (.stat v) = l.wRepeat (.stat v) := fun v hv =>
      Function.update_of_ne (fun he => hv (TimerW.stat.inj he)) ..
    have hfit' : Fit e c rest S ((l.setWd w (-1)).setRepeat w r) := by
      refine ⟨h.timersOk, fun v hv => ?_, h.sound, hfit.filed.congr (fun _ _ => rfl) rfl⟩
      rw [hrep v (hS v hv)]
      exact h.armed v hv
    have hmoves' : Moves {w} l ((l.setWd w (-1)).setRepeat w r) :=
      ⟨⟨rfl, hne, fun _ _ => .rfl, hrep⟩, .refl _, fun _ _ _ => .rfl⟩
    have hwd : ((l.setWd w (-1)).setRepeat w r).wWd w < 0 := by
      show Function.update l.wWd w (-1) w < 0
      rw [Function.update_self]
      decide
    have hn := (rearmed_statRearm hfit'.timersOk w).rearm
    refine ⟨hfit'.enter (hfit'.filed.skip hw hwd) rfl rfl rfl hn, hmoves'.trans hn.toMoves, .inl (hn.runs.mpr ?_)⟩
    show Function.update l.wRepeat (.stat w) r (.stat w) ≠ 0
    rw [Function.update_self]
    exact interval_ne c.def_pos _ w

/-- Along a bucket that has been emptied. A watcher that has not been asked again is still to come, here or in a
later bucket. -/
theorem Fit.forkWalk (slot : ℕ) (ws : List U) (hnodup : ws.Nodup) (hws : ∀ v ∈ ws, v ∈ S)
    (h : Fit e c rest (S \ {v | v ∈ ws}) l) :
    Fit e c rest S (ws.foldl (Loop.infyForkOne e c) l) ∧ Moves S l (ws.foldl (Loop.infyForkOne e c) l) ∧
      ∀ v, Sees rest l v ∨ v ∈ ws ∨ (∃ k, slot < k ∧ v ∈ l.fsHash k) →
        Sees rest (ws.foldl (Loop.infyForkOne e c) l) v ∨
          ∃ k, slot < k ∧ v ∈ (ws.foldl (Loop.infyForkOne e c) l).fsHash k := by
  induction ws generalizing l with
  | nil =>
    have hS : S \ {v | v ∈ ([] : List U)} = S := by simp
    rw [hS] at h
    exact ⟨h, .refl _ l, fun v hv => hv.imp_right fun hn => hn.resolve_left List.not_mem_nil⟩
  | cons w ws ih =>
    rw [List.nodup_cons] at hnodup
    have hwS := hws w List.mem_cons_self
    obtain ⟨hfit, hmoves, hsees⟩ := h.infyForkOne (w := w) fun hn => hn.2 List.mem_cons_self
    have hS : insert w (S \ {v | v ∈ w :: ws}) = S \ {v | v ∈ ws} := by
      ext v
      rw [Set.mem_insert_iff, Set.mem_sdiff, Set.mem_sdiff, Set.mem_ofPred_eq, Set.mem_ofPred_eq, List.mem_cons,
        not_or]
      constructor
      · rintro (rfl | ⟨hv, -, hn⟩)
        · exact ⟨hwS, hnodup.1⟩
        · exact ⟨hv, hn⟩
      · exact fun ⟨hv, hn⟩ => or_iff_not_imp_left.mpr fun hne => ⟨hv, hne, hn⟩
    rw [hS] at hfit
    obtain ⟨hfit', hmoves', hsees'⟩ := ih hnodup.2 (fun v hv => hws v (List.mem_cons_of_mem w hv)) hfit
    refine ⟨hfit', (hmoves.mono (Set.singleton_subset_iff.mpr hwS)).trans hmoves', fun v hv => hsees' v ?_⟩
    by_cases hvw : v = w
    · subst hvw
      exact .inl hsees
    · rcases hv with hs | hmem | ⟨k, hk, hmem⟩
      · exact .inl (hmoves.sees hvw hs)
      · exact .inr (.inl ((List.mem_cons.mp hmem).resolve_left hvw))
      · exact .inr (.inr ⟨k, hk, (hmoves.hash k v hvw).mpr hmem⟩)

end

section

omit [Add T] [Sub T]

theorem slot_lt (c : Consts T) (wd : ℤ) : c.slot wd < c.hashsize := Nat.mod_lt _ c.hash_pos

end

section

omit [DecidableEq A]

theorem Fit.infyForkSlot (h : Fit e c rest S l) (slot : ℕ) :
    Fit e c rest S (Loop.infyForkSlot e c l slot) ∧ Keeps S l (Loop.infyForkSlot e c l slot) ∧
      ∀ v, Sees rest l v ∨ (∃ k, slot ≤ k ∧ v ∈ l.fsHash k) →
        Sees rest (Loop.infyForkSlot e c l slot) v ∨
          ∃ k, slot < k ∧ v ∈ (Loop.infyForkSlot e c l slot).fsHash k := by
  let m : Loop U T (Kernel U A) := { l with fsHash := Function.update l.fsHash slot [] }
  have hmS : Fit e c rest (S \ {v | v ∈ l.fsHash slot}) m := by
    refine ⟨h.timersOk, fun v hv => h.armed v hv.1, h.sound, fun k v => ?_, fun k => ?_⟩
    · show v ∈ Function.update l.fsHash slot [] k ↔ (v ∈ S ∧ v ∉ l.fsHash slot) ∧ 0 ≤ l.wWd v ∧ k = c.slot (l.wWd v)
      rw [and_right_comm, ← h.filed.mem k v]
      by_cases hk : k = slot
      · subst hk
        rw [Function.update_self]
        exact iff_of_false List.not_mem_nil fun hv => hv.2 hv.1
      · rw [Function.update_of_ne hk]
        refine (and_iff_left_of_imp fun hv hslot => hk ?_).symm
        exact ((h.filed.mem k v).mp hv).2.2.trans ((h.filed.mem slot v).mp hslot).2.2.symm
    · show (Function.update l.fsHash slot [] k).Nodup
      by_cases hk : k = slot
      · subst hk
        rw [Function.update_self]
        exact List.nodup_nil
      · rw [Function.update_of_ne hk]
        exact h.filed.nodup k
  obtain ⟨hfit, hmoves, hsees⟩ :=
    hmS.forkWalk slot (l.fsHash slot) (h.filed.nodup slot) fun v hv => ((h.filed.mem slot v).mp hv).1
  refine ⟨hfit, ⟨hmoves.stats, hmoves.wd, hmoves.timer, hmoves.wRepeat⟩, fun v hv => hsees v ?_⟩
  rcases hv with hs | ⟨k, hk, hmem⟩
  · exact .inl hs
  · rcases hk.eq_or_lt with rfl | hlt
    · exact .inr (.inl hmem)
    · refine .inr (.inr ⟨k, hlt, ?_⟩)
      show v ∈ Function.update l.fsHash slot [] k
      rw [Function.update_of_ne (Nat.ne_of_gt hlt)]
      exact hmem

/-- After `d` of the buckets, a watcher that has not been asked again is in a later one. -/
theorem Fit.infyForkSlots (h : Fit e c rest S l) (d : ℕ) :
    Fit e c rest S ((List.range d).foldl (Loop.infyForkSlot e c) l) ∧
      Keeps S l ((List.range d).foldl (Loop.infyForkSlot e c) l) ∧
      ∀ v, Sees rest l v ∨ (∃ k, v ∈ l.fsHash k) →
        Sees rest ((List.range d).foldl (Loop.infyForkSlot e c) l) v ∨
          ∃ k, d ≤ k ∧ v ∈ ((List.range d).foldl (Loop.infyForkSlot e c) l).fsHash k := by
  induction d with
  | zero => exact ⟨h, .refl _ l, fun v hv => hv.imp_right fun ⟨k, hk⟩ => ⟨k, Nat.zero_le k, hk⟩⟩
  | succ d ih =>
    rw [List.range_succ, List.foldl_append]
    obtain ⟨hfit, hkeeps, hsees⟩ := ih
    obtain ⟨hfit', hkeeps', hsees'⟩ := hfit.infyForkSlot d
    exact ⟨hfit', hkeeps.trans hkeeps', fun v hv => hsees' v (hsees v hv)⟩

end

/-! ### What the stat watchers have no part in -/

/-- Nothing of the stat watchers has changed from `l` to `m`, only that of the other watchers. -/
structure Aside (e : Env U T) (l m : Loop U T (Kernel U A)) : Prop where
  stats : m.stats = l.stats
  wd : m.wWd = l.wWd
  hash : m.fsHash = l.fsHash
  kernel : m.kernel = l.kernel
  wRepeat : ∀ v, m.wRepeat (.stat v) = l.wRepeat (.stat v)
  timersOk : m.TimersOk e
  timer : ∀ v, m.timers.active (.stat v) ≠ 0 ↔ l.timers.active (.stat v) ≠ 0

section

omit [DecidableEq U] [DecidableEq A] [Add T] [Sub T]

theorem Fit.aside (h : Fit e c rest S l) (ha : Aside e l m) : Fit e c rest S m ∧ Moves ∅ l m := by
  refine ⟨⟨ha.timersOk, fun v hv => ?_, ?_, h.filed.congr (fun _ _ => by rw [ha.wd]) ha.hash⟩,
    ⟨⟨ha.stats, fun _ _ => by rw [ha.wd], fun v _ => ha.timer v, fun v _ => ha.wRepeat v⟩, ?_,
      fun k v _ => by rw [ha.hash]⟩⟩
  · rw [ha.timer, ha.wRepeat]
    exact h.armed v hv
  · rw [ha.kernel]
    exact h.sound
  · rw [ha.kernel]
    exact .refl _

end

section

omit [DecidableEq U] [DecidableEq A] [Add T] [Sub T] [Zero T]

theorem Aside.trans (h : Aside e l m) (h' : Aside e m n) : Aside e l n where
  stats := h'.stats.trans h.stats
  wd := h'.wd.trans h.wd
  hash := h'.hash.trans h.hash
  kernel := h'.kernel.trans h.kernel
  wRepeat v := (h'.wRepeat v).trans (h.wRepeat v)
  timersOk := h'.timersOk
  timer v := (h'.timer v).trans (h.timer v)

/-- What touches neither the timers nor the stat watchers. -/
theorem Aside.of_eq (h : l.TimersOk e) (hs : m.stats = l.stats) (hwd : m.wWd = l.wWd) (hh : m.fsHash = l.fsHash)
    (hk : m.kernel = l.kernel) (hr : m.wRepeat = l.wRepeat) (ht : m.timers = l.timers) : Aside e l m where
  stats := hs
  wd := hwd
  hash := hh
  kernel := hk
  wRepeat v := by rw [hr]
  timersOk := by
    unfold Loop.TimersOk
    rw [ht]
    exact h
  timer v := by rw [ht]

end

section

omit [DecidableEq A] [Add T] [Sub T] [Zero T]

theorem aside_evIoStart (h : l.TimersOk e) (x : IoW U) : Aside e l (l.evIoStart x) := by
  unfold Loop.evIoStart
  split <;> exact .of_eq h rfl rfl rfl rfl rfl rfl

theorem aside_evIoStop (h : l.TimersOk e) (x : IoW U) : Aside e l (l.evIoStop x) := by
  unfold Loop.evIoStop
  dsimp only
  split <;> exact .of_eq h rfl rfl rfl rfl rfl rfl

theorem aside_infyInit (h : l.TimersOk e) (o : Opened) : Aside e l (l.infyInit o) := by
  unfold Loop.infyInit
  split
  · exact .of_eq h rfl rfl rfl rfl rfl rfl
  · dsimp only
    split
    · exact .of_eq h rfl rfl rfl rfl rfl rfl
    · rename_i fd _
      let m : Loop U T (Kernel U A) :=
        (({ l with fsFd := fd, fs2625 := o.is2625 } : Loop U T (Kernel U A)).evIoInit .fsW fd evRead).evSetPriority
          (.io .fsW) maxpri
      have hm : Aside e l m := .of_eq h rfl rfl rfl rfl rfl rfl
      have hstart := hm.trans (aside_evIoStart hm.timersOk .fsW)
      exact hstart.trans (.of_eq hstart.timersOk rfl rfl rfl rfl rfl rfl)

theorem aside_infyReopen (h : l.TimersOk e) (fs : Option ℕ) : Aside e l (l.infyReopen fs) := by
  unfold Loop.infyReopen
  split
  · exact .of_eq h rfl rfl rfl rfl rfl rfl
  · have href : Aside e l l.evRef := .of_eq h rfl rfl rfl rfl rfl rfl
    have hstop := href.trans (aside_evIoStop href.timersOk .fsW)
    cases fs with
    | none => exact hstop.trans (.of_eq hstop.timersOk rfl rfl rfl rfl rfl rfl)
    | some fd =>
      have hset : Aside e l
          (({ l.evRef.evIoStop .fsW with fsFd := fd } : Loop U T (Kernel U A)).evIoSet .fsW fd evRead) :=
        hstop.trans (.of_eq hstop.timersOk rfl rfl rfl rfl rfl rfl)
      have hstart := hset.trans (aside_evIoStart hset.timersOk .fsW)
      exact hstart.trans (.of_eq hstart.timersOk rfl rfl rfl rfl rfl rfl)

end

section

omit [DecidableEq A]

/-- `timers_reify` leaves a private timer active that has an interval. -/
theorem aside_timersReifyOne (h : l.TimersOk e)
    (harmed : ∀ v, l.timers.active (.stat v) ≠ 0 → l.wRepeat (.stat v) ≠ 0) (hdue : l.timersDue e) :
    Aside e l (l.timersReifyOne e) := by
  unfold Loop.timersReifyOne
  dsimp only
  split
  · have hd := Deadlines.Ok.sink h hdue.1
      (if l.timers.wAt (l.timers.rootW e.heap) + l.wRepeat (l.timers.rootW e.heap) < l.mnNow then l.mnNow
        else l.timers.wAt (l.timers.rootW e.heap) + l.wRepeat (l.timers.rootW e.heap))
    exact ⟨rfl, rfl, rfl, rfl, fun _ => rfl, hd.self, fun v => hd.active_iff (.stat v)⟩
  · rename_i hr
    obtain ⟨p, n, d, heq, hd⟩ := Loop.evTimerStop_eq h (l.timers.rootW e.heap)
    have hroot := (Deadlines.Linked.root (Deadlines.Ok.linked h) hdue.1).1
    rw [heq]
    refine ⟨rfl, rfl, rfl, rfl, fun _ => rfl, hd.self, fun v => (hd.active_iff (.stat v)).trans ?_⟩
    refine and_iff_right_of_imp fun hv he => ?_
    rw [← he] at hr
    exact hr (harmed v hv)

theorem aside_timersReifyLoop (d : ℕ) (h : l.TimersOk e)
    (harmed : ∀ v, l.timers.active (.stat v) ≠ 0 → l.wRepeat (.stat v) ≠ 0) :
    Aside e l (Loop.timersReifyLoop e d l) := by
  induction d generalizing l with
  | zero => exact .of_eq h rfl rfl rfl rfl rfl rfl
  | succ d ih =>
    unfold Loop.timersReifyLoop
    split
    · rename_i hdue
      have hone := aside_timersReifyOne h harmed hdue
      refine hone.trans (ih hone.timersOk fun v => ?_)
      rw [hone.timer, hone.wRepeat]
      exact harmed v
    · exact .of_eq h rfl rfl rfl rfl rfl rfl

theorem aside_timersReify (h : l.TimersOk e)
    (harmed : ∀ v, l.timers.active (.stat v) ≠ 0 → l.wRepeat (.stat v) ≠ 0) : Aside e l (l.timersReify e) := by
  unfold Loop.timersReify
  split
  · have hloop := aside_timersReifyLoop l.timers.cnt h harmed
    exact hloop.trans (.of_eq hloop.timersOk rfl rfl rfl rfl rfl rfl)
  · exact .of_eq h rfl rfl rfl rfl rfl rfl

/-- `infy_fork`: a watcher that has been in a bucket is asked again, any other polls. -/
theorem Fit.infyFork (h : Fit e c [] S l) (fs : Option ℕ) : Fit e c [] S (Loop.infyFork e c fs l) ∧
    Keeps S l (Loop.infyFork e c fs l) ∧ ∀ v ∈ S, Sees [] l v → Sees [] (Loop.infyFork e c fs l) v := by
  unfold Loop.infyFork
  split
  · exact ⟨h, .refl S l, fun _ _ => id⟩
  · let m : Loop U T (Kernel U A) := { l.infyReopen fs with kernel := l.kernel.reopen }
    obtain ⟨hfit, hmoves⟩ := h.aside (aside_infyReopen h.timersOk fs)
    have hash : m.fsHash = l.fsHash := (aside_infyReopen h.timersOk fs).hash
    have hnone : ∀ wd, ¬ l.kernel.reopen.Live wd := fun wd ⟨_, hmem⟩ => List.not_mem_nil hmem
    have hsound : l.kernel.reopen.Sound [] :=
      ⟨le_refl 1, fun wd hl => absurd hl (hnone wd), fun wd ⟨_, hev, _⟩ => absurd hev List.not_mem_nil⟩
    have hm : Fit e c [] S m := ⟨hfit.timersOk, hfit.armed, hsound, hfit.filed.congr (fun _ _ => rfl) rfl⟩
    have hlm : Keeps S l m := (show Keeps ∅ l m from
      ⟨hmoves.stats, hmoves.wd, hmoves.timer, hmoves.wRepeat⟩).mono (Set.empty_subset S)
    obtain ⟨hfit', hkeeps, hsees⟩ := hm.infyForkSlots c.hashsize
    refine ⟨hfit', hlm.trans hkeeps, fun v hS hv => (hsees v ?_).resolve_right ?_⟩
    · rcases hv with ht | ⟨hwd, -⟩
      · exact .inl (.inl ((hmoves.timer v (Set.notMem_empty v)).mpr ht))
      · refine .inr ⟨c.slot (l.wWd v), ?_⟩
        rw [hash]
        exact (h.filed.mem _ v).mpr ⟨hS, hwd, rfl⟩
    · rintro ⟨k, hk, hmem⟩
      have hslot := ((hfit'.filed.mem k v).mp hmem).2.2
      exact absurd (slot_lt c _) (not_lt.mpr (hslot ▸ hk))

end

end Infy

end Qev
