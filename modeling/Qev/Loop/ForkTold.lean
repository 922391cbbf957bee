/-
# Who is told of a fork

`Told` is what a history of marks, invocations and polls should be: no fork watcher is
told of a fork when none was marked since it was last told of one, and when a pass gets
to its poll every watcher that was active at a mark has been told since.

One variable holds the marks and what epoll asks for, and only `loop_fork` clears it, so
this takes conditions on what is done (`Within`): no pass finds `postfork` set by epoll
alone, or still set by a pass it is called from, with fork watchers active; no pass that
has queued them is left by a break before `loop_fork`; no fork watcher is stopped or
cleared while it is still to be told; and user code does not feed `EV_FORK` itself.
-/
import Qev.Loop.Fork

namespace Qev

/-! ### The array of a family of watchers -/

namespace Slots

variable {W : Type} [DecidableEq W] {s : Slots W} {w w' : W}

/-- The place in `active` is the watcher's place in the array. -/
structure Placed (s : Slots W) : Prop where
  cell : ∀ i < s.cnt 0, s.active (s.cells 0 i) = i + 1
  active : ∀ w, s.active w ≠ 0 → s.active w ≤ s.cnt 0 ∧ s.cells 0 (s.active w - 1) = w

section

omit [DecidableEq W]

theorem mem_toList : w ∈ s.toList 0 ↔ ∃ i < s.cnt 0, s.cells 0 i = w := by
  simp [toList]

theorem Placed.mem_iff (h : s.Placed) : w ∈ s.toList 0 ↔ s.active w ≠ 0 := by
  rw [mem_toList]
  constructor
  · rintro ⟨i, hi, rfl⟩
    rw [h.cell i hi]
    exact Nat.succ_ne_zero i
  · intro hw
    obtain ⟨hle, hc⟩ := h.active w hw
    exact ⟨s.active w - 1, by omega, hc⟩

end

theorem Placed.start (h : s.Placed) (hw : s.active w = 0) : (s.start 0 w).Placed := by
  have hne : ∀ i < s.cnt 0, s.cells 0 i ≠ w := by
    intro i hi he
    have hc := h.cell i hi
    rw [he, hw] at hc
    exact absurd hc (Nat.succ_ne_zero i).symm
  constructor
  · intro i hi
    simp only [Slots.start, Nat.add_sub_cancel, Function.update_self] at hi ⊢
    by_cases hl : i = s.cnt 0
    · rw [hl, Function.update_self, Function.update_self]
    · have hlt : i < s.cnt 0 := by omega
      rw [Function.update_of_ne hl, Function.update_of_ne (hne i hlt)]
      exact h.cell i hlt
  · intro w' hw'
    simp only [Slots.start, Nat.add_sub_cancel, Function.update_self] at hw' ⊢
    by_cases he : w' = w
    · rw [he, Function.update_self, Nat.add_sub_cancel, Function.update_self]
      exact ⟨le_refl _, rfl⟩
    · rw [Function.update_of_ne he] at hw' ⊢
      obtain ⟨hle, hc⟩ := h.active w' hw'
      have hl : s.active w' - 1 ≠ s.cnt 0 := by omega
      rw [Function.update_of_ne hl]
      exact ⟨by omega, hc⟩

theorem active_start (w : W) (hw' : s.active w' ≠ 0) : (s.start 0 w).active w' ≠ 0 := by
  simp only [Slots.start]
  by_cases he : w' = w
  · rw [he, Function.update_self]
    exact Nat.succ_ne_zero _
  · rwa [Function.update_of_ne he]

/-- The last watcher takes the place of the one that is stopped. -/
theorem Placed.active_stop (h : s.Placed) (hw : s.active w ≠ 0) (w' : W) :
    (s.stop 0 w).active w' = if w' = w then 0
      else if s.active w' = s.cnt 0 then s.active w else s.active w' := by
  obtain ⟨hle, hc⟩ := h.active w hw
  have hlast := h.cell (s.cnt 0 - 1) (by omega)
  simp only [Slots.stop]
  by_cases he : w' = w
  · rw [he, Function.update_self, if_pos rfl]
  · rw [Function.update_of_ne he, if_neg he]
    by_cases hl : w' = s.cells 0 (s.cnt 0 - 1)
    · rw [hl, Function.update_self, if_pos (by rw [hlast]; omega)]
    · rw [Function.update_of_ne hl, if_neg]
      intro hcnt
      obtain ⟨-, hc'⟩ := h.active w' (by omega)
      rw [hcnt] at hc'
      exact hl hc'.symm

theorem Placed.stop (h : s.Placed) (hw : s.active w ≠ 0) : (s.stop 0 w).Placed := by
  obtain ⟨hle, hc⟩ := h.active w hw
  have hcells : ∀ i, (s.stop 0 w).cells 0 i =
      if i = s.active w - 1 then s.cells 0 (s.cnt 0 - 1) else s.cells 0 i := by
    intro i
    simp only [Slots.stop, Function.update_self, Function.update_apply]
  have hcnt : (s.stop 0 w).cnt 0 = s.cnt 0 - 1 := by simp [Slots.stop]
  constructor
  · intro i hi
    rw [hcnt] at hi
    rw [h.active_stop hw, hcells]
    by_cases hi' : i = s.active w - 1
    · have hlast := h.cell (s.cnt 0 - 1) (by omega)
      rw [if_pos hi', if_neg, if_pos (by omega)]
      · omega
      · intro he
        rw [he] at hlast
        omega
    · have hcell := h.cell i (by omega)
      rw [if_neg hi', if_neg, if_neg (by omega)]
      · exact hcell
      · intro he
        rw [he] at hcell
        omega
  · intro w' hw'
    rw [h.active_stop hw] at hw' ⊢
    rw [hcnt, hcells]
    by_cases he : w' = w
    · rw [if_pos he] at hw'
      exact absurd rfl hw'
    · rw [if_neg he] at hw' ⊢
      by_cases hl : s.active w' = s.cnt 0
      · obtain ⟨-, hc'⟩ := h.active w' (by omega)
        rw [if_pos hl, if_pos rfl, ← hl, hc']
        refine ⟨?_, rfl⟩
        have hne : s.active w ≠ s.cnt 0 := by
          intro h'
          rw [hl, ← h', hc] at hc'
          exact he hc'.symm
        omega
      · rw [if_neg hl] at hw' ⊢
        obtain ⟨hle', hc'⟩ := h.active w' hw'
        rw [if_neg]
        · exact ⟨by omega, hc'⟩
        · intro h'
          rw [h', hc] at hc'
          exact he hc'.symm

theorem Placed.mem_stop (h : s.Placed) (hw : s.active w ≠ 0) (hne : w' ≠ w) (hm : w' ∈ s.toList 0) :
    w' ∈ (s.stop 0 w).toList 0 := by
  rw [h.mem_iff] at hm
  rw [(h.stop hw).mem_iff, h.active_stop hw, if_neg hne]
  split
  · exact hw
  · exact hm

end Slots

namespace Forks

open Lib Pend Running

variable {U : Type} [DecidableEq U]

/-! ### What a history should be -/

/-- A fork was marked since `w` was last told of one. -/
def MarkedSince (w : ForkW U) : List (Ev U) → Prop
  | [] => False
  | .marked _ :: _ => True
  | .invoked w' :: l => w' ≠ w ∧ MarkedSince w l
  | .polled :: l => MarkedSince w l

/-- A fork was marked for `w`, which has not been told since. -/
def Owed (w : ForkW U) : List (Ev U) → Prop
  | [] => False
  | .marked told :: l => w ∈ told ∨ Owed w l
  | .invoked w' :: l => w' ≠ w ∧ Owed w l
  | .polled :: l => Owed w l

/-- An invocation has a mark between it and the one before, and a poll has nobody still to be told. -/
def Told : List (Ev U) → Prop
  | [] => True
  | .marked _ :: l => Told l
  | .invoked w :: l => MarkedSince w l ∧ Told l
  | .polled :: l => (∀ w, ¬ Owed w l) ∧ Told l

/-- `postfork` has the mark of a fork, not only what epoll asks for. -/
def Running.Marked (s : Running U) : Prop := s.postfork ≠ 0 ∧ s.postfork ≠ 2

/-- The next step of `f` tests for a fork. -/
def Running.TestsFork (s : Running U) (f : Frame) (i : Pass U) : Prop :=
  f.pos = .entry ∨ (f.pos = .tail ∧ s.again f i)

/-- What a pass finds in `postfork` when fork watchers are active is a mark, and not one that a pass further
out is telling them of. A changed process id is a mark of its own. -/
def Running.FindsMark (s : Running U) (f : Frame) (fs : List Frame) (i : Pass U) : Prop :=
  s.TestsFork f i → s.curpid = 0 ∨ i.pid = s.curpid → s.postfork ≠ 0 → s.forks.cnt 0 ≠ 0 →
    s.postfork ≠ 2 ∧ ∀ g ∈ fs, g.pos.forked = false

/-- A pass that has queued the fork watchers is not left with the mark standing. -/
def Running.NotLeft (s : Running U) (f : Frame) (i : Pass U) : Prop :=
  f.pos.forked = true → (f.pos = .forks → i.prepares = []) → s.loopDone ≠ .cancel → ¬ s.Marked

/-- What the code does not see to. -/
def Within (s : Running U) : Act U → Prop
  | .user (.feedEvent (.fork _) revents) => revents &&& evFork = 0
  | .user (.clearPending (.fork w)) => ¬ Owed w s.hist
  | .evForkStop w => ¬ Owed w s.hist
  | .tick i =>
    match s.frames with
    | [] => True
    | f :: fs => s.disp.ctl = .user → s.FindsMark f fs i ∧ s.NotLeft f i
  | _ => True

instance (w : ForkW U) (l : List (Ev U)) : Decidable (Owed w l) := by
  induction l with
  | nil => exact instDecidableFalse
  | cons e l ih =>
    cases e with
    | marked told => exact inferInstanceAs (Decidable (_ ∨ _))
    | invoked w' => exact inferInstanceAs (Decidable (_ ∧ _))
    | polled => exact ih

instance (s : Running U) : Decidable s.Marked := inferInstanceAs (Decidable (_ ∧ _))

instance (s : Running U) (f : Frame) (i : Pass U) : Decidable (s.TestsFork f i) :=
  inferInstanceAs (Decidable (_ ∨ _))

instance (s : Running U) (f : Frame) (fs : List Frame) (i : Pass U) : Decidable (s.FindsMark f fs i) :=
  inferInstanceAs (Decidable (_ → _ → _ → _ → _))

instance (s : Running U) (f : Frame) (i : Pass U) : Decidable (s.NotLeft f i) :=
  inferInstanceAs (Decidable (_ → _ → _ → _))

instance (s : Running U) (a : Act U) : Decidable (Within s a) := by
  unfold Within
  split
  · infer_instance
  · infer_instance
  · infer_instance
  · split <;> infer_instance
  · infer_instance

/-! ### The events of a fork watcher -/

/-- An event with `EV_FORK` waits for `w`. -/
def Due (d : Dispatch (Watcher U)) (w : ForkW U) : Prop :=
  ∃ revents ∈ fedSince d.log (.fork w), revents &&& evFork ≠ 0

theorem orAll_and {l : List Events} {m : Events} : orAll l &&& m ≠ 0 ↔ ∃ x ∈ l, x &&& m ≠ 0 := by
  induction l with
  | nil => simp [orAll]
  | cons x l ih =>
    have hor : orAll (x :: l) &&& m = (x &&& m) ||| (orAll l &&& m) := by
      show (x ||| orAll l) &&& m = _
      rw [BitVec.and_comm, BitVec.and_or_distrib_left, BitVec.and_comm m x, BitVec.and_comm m]
    rw [hor]
    show ¬ (x &&& m ||| orAll l &&& m = 0#32) ↔ _
    rw [BitVec.or_eq_zero_iff, not_and_or]
    simp only [List.mem_cons, exists_eq_or_imp]
    exact or_congr Iff.rfl ih

variable {d d' : Dispatch (Watcher U)} {w : ForkW U}

theorem due_fed {w' : Watcher U} {revents : Events} (h : d'.log = .fed w' revents :: d.log) :
    Due d' w ↔ (w' = .fork w ∧ revents &&& evFork ≠ 0) ∨ Due d w := by
  unfold Due
  rw [h]
  simp only [fedSince]
  by_cases he : Watcher.fork w = w'
  · rw [if_pos he]
    simp [he]
  · rw [if_neg he]
    simp [Ne.symm he]

theorem due_cleared {w' : Watcher U} (h : d'.log = .cleared w' :: d.log) :
    Due d' w ↔ w' ≠ .fork w ∧ Due d w := by
  unfold Due
  rw [h]
  simp only [fedSince]
  by_cases he : Watcher.fork w = w'
  · rw [if_pos he]
    simp [he]
  · rw [if_neg he]
    simp [Ne.symm he]

theorem due_invoked {w' : Watcher U} {revents : Events} (h : d'.log = .invoked w' revents :: d.log) :
    Due d' w ↔ w' ≠ .fork w ∧ Due d w := by
  unfold Due
  rw [h]
  simp only [fedSince]
  by_cases he : Watcher.fork w = w'
  · rw [if_pos he]
    simp [he]
  · rw [if_neg he]
    simp [Ne.symm he]

theorem due_log (h : d'.log = d.log) : Due d' w ↔ Due d w := by
  unfold Due
  rw [h]

/-- Nothing is due when nothing is pending. -/
theorem not_due (h : Pend.Inv d) (hidle : ∀ q, d.pend.pendingcnt q = 0) (w : ForkW U) : ¬ Due d w := by
  rintro ⟨revents, hmem, -⟩
  have hne : fedSince d.log (.fork w) ≠ [] := List.ne_nil_of_mem hmem
  have hp := (h.ok.queued (.fork w)).mpr hne
  have hle := (h.ok.held _ hp).1
  rw [hidle] at hle
  omega

/-! ### The queues and the activations -/

/-- Nothing is pending when an activation goes on, and activations are as deep as their calls. -/
structure Base (s : Running U) : Prop where
  pend : Pend.Inv s.disp
  dummy : s.disp.pend.pendingW = .pendingW
  nested : s.frames.Pairwise fun f g => g.base < f.base
  deep : ∀ f ∈ s.frames.head?, f.base ≤ s.disp.depth ∧ (s.disp.ctl ≠ .user → f.base < s.disp.depth)
  idle : s.Resumes → ∀ q, s.disp.pend.pendingcnt q = 0
  placed : s.forks.Placed

variable {s t : Running U}

theorem base_init [Inhabited U] (curpid : ℕ) : Base (init (U := U) curpid) := by
  refine ⟨inv_init _, rfl, .nil, fun f hf => (by cases hf), fun hr => ?_,
    fun i hi => ?_, fun w hw => ?_⟩
  · obtain ⟨f, hf, -⟩ := hr.2
    cases hf
  · exact absurd hi (Nat.not_lt_zero i)
  · exact absurd rfl hw

theorem Base.above (h : Base s) (hu : s.InUser) : ∀ f ∈ s.frames.head?, f.base < s.disp.depth :=
  fun f hf => lt_of_le_of_ne (h.deep f hf).1 (hu.2 f hf)

/-- A step that leaves the activations and the array, and goes no less deep. -/
theorem Base.stay (h : Base s) (hu : s.InUser) (hp : Pend.Inv t.disp)
    (hd : t.disp.pend.pendingW = s.disp.pend.pendingW) (hle : s.disp.depth ≤ t.disp.depth)
    (hf : t.frames = s.frames) (hpl : t.forks.Placed) : Base t := by
  have habove := h.above hu
  refine ⟨hp, hd.trans h.dummy, hf ▸ h.nested, fun f hm => ?_, fun hr => ?_, hpl⟩
  · have hlt := habove f (hf ▸ hm)
    exact ⟨by omega, fun _ => by omega⟩
  · obtain ⟨f, hm, he⟩ := hr.2
    have hlt := habove f (hf ▸ hm)
    omega

theorem call_frame {a : Pend.Act (Watcher U)} (hu : Usable a) (hs : Pend.call d a = some d') :
    d'.pend.pendingW = d.pend.pendingW ∧ d.depth ≤ d'.depth := by
  cases a with
  | feedEvent w revents =>
    simp only [call] at hs
    split at hs
    · cases hs
    · cases hs
      exact ⟨pendingW_feed .., le_refl _⟩
  | clearPending w =>
    cases hs
    exact ⟨(clearPending_frame ..).1, le_refl _⟩
  | stop w =>
    cases hs
    exact ⟨(clearPending_frame ..).1, le_refl _⟩
  | start w =>
    cases hs
    exact ⟨rfl, le_refl _⟩
  | setPriority w pri =>
    simp only [call] at hs
    split at hs
    · cases hs
      exact ⟨rfl, le_refl _⟩
    · cases hs
  | invokePending =>
    cases hs
    exact ⟨rfl, Nat.le_succ _⟩
  | ret =>
    simp only [call] at hs
    split at hs
    · cases hs
    · cases hs
      exact ⟨rfl, le_refl _⟩
  | feedReverse w => exact hu.elim
  | feedReverseDone revents => exact hu.elim
  | queueEvents events type => exact hu.elim
  | tick => exact hu.elim

/-- Watchers are fed, one after the other. -/
theorem feed_spec (feeds : List (Watcher U × Events)) (hp : Pend.Inv s.disp) (hu : s.disp.ctl = .user)
    (hd : s.disp.pend.pendingW = .pendingW) (hf : ∀ e ∈ feeds, e.1 ≠ .pendingW) :
    Pend.Inv (s.feed feeds).disp ∧ (s.feed feeds).disp.ctl = .user ∧
      (s.feed feeds).disp.depth = s.disp.depth ∧ (s.feed feeds).disp.pend.pendingW = .pendingW ∧
      ∀ w, Due (s.feed feeds).disp w ↔
        (∃ e ∈ feeds, e.1 = .fork w ∧ e.2 &&& evFork ≠ 0) ∨ Due s.disp w := by
  unfold Running.feed
  dsimp only
  generalize s.disp = d at hp hu hd
  induction feeds generalizing d with
  | nil => exact ⟨hp, hu, rfl, hd, fun w => by simp⟩
  | cons e feeds ih =>
    have hne := hf e List.mem_cons_self
    have hcall : Pend.call d (.feedEvent e.1 e.2) =
        some { d with pend := d.pend.evFeedEvent e.1 e.2, log := .fed e.1 e.2 :: d.log } := by
      simp only [call, hd, if_neg hne]
    obtain ⟨h₁, h₂, h₃, h₄, h₅⟩ := ih (fun e' he' => hf e' (List.mem_cons_of_mem _ he'))
      { d with pend := d.pend.evFeedEvent e.1 e.2, log := .fed e.1 e.2 :: d.log } (inv_call hp hu hcall) hu
      ((pendingW_feed ..).trans hd)
    refine ⟨h₁, h₂, h₃, h₄, fun w => (h₅ w).trans ?_⟩
    rw [due_fed rfl]
    simp only [List.mem_cons, exists_eq_or_imp, or_assoc]
    exact or_left_comm

/-- An activation calls `EV_INVOKE_PENDING` once more, or returns. -/
theorem Base.invoke (h : Base s) {f : Frame} {fs : List Frame} (hf : s.frames = f :: fs)
    (hc : s.disp.ctl = .user) (hb : f.base = s.disp.depth) (feeds : List (Watcher U × Events))
    (hne : ∀ e ∈ feeds, e.1 ≠ .pendingW) (pos : At) (m : Running U) (hm : m.disp = s.disp)
    (hk : m.forks = s.forks) : Base ((m.feed feeds).invoke f.flags f.base pos fs) := by
  have hpair := h.nested
  rw [hf, List.pairwise_cons] at hpair
  obtain ⟨h₁, h₂, h₃, h₄, -⟩ := feed_spec feeds (hm ▸ h.pend) (hm ▸ hc) (hm ▸ h.dummy) hne
  refine ⟨inv_call (a := .invokePending) h₁ h₂ rfl, h₄, List.pairwise_cons.mpr hpair, fun g hg => ?_, fun hr => ?_, ?_⟩
  · cases hg
    show f.base ≤ (m.feed feeds).disp.depth + 1 ∧ (_ → f.base < (m.feed feeds).disp.depth + 1)
    rw [h₃, hm]
    exact ⟨by omega, fun _ => by omega⟩
  · cases hr.1
  · show m.forks.Placed
    rw [hk]
    exact h.placed

theorem Base.leave (h : Base s) {f : Frame} {fs : List Frame} (hf : s.frames = f :: fs)
    (hb : f.base = s.disp.depth) (m : Running U) (hm : m.disp = s.disp) (hk : m.forks = s.forks) :
    Base (m.leave fs) := by
  have hpair := h.nested
  rw [hf, List.pairwise_cons] at hpair
  have hlt : ∀ g ∈ fs.head?, g.base < m.disp.depth := fun g hg => by
    rw [hm, ← hb]
    exact hpair.1 g (List.mem_of_mem_head? hg)
  refine ⟨?_, ?_, hpair.2, fun g hg => ⟨(hlt g hg).le, fun _ => hlt g hg⟩, fun hr => ?_, ?_⟩
  · show Pend.Inv m.disp
    exact hm ▸ h.pend
  · show m.disp.pend.pendingW = _
    exact hm ▸ h.dummy
  · obtain ⟨g, hg, he⟩ := hr.2
    exact absurd he (ne_of_lt (hlt g hg))
  · show m.forks.Placed
    exact hk ▸ h.placed

/-! ### A step of the loop -/

/-- What the loop does when user code does not run: `ev_invoke_pending` takes a step, or the innermost
`ev_run` goes on. -/
theorem tick_cases {i : Pass U} (hs : step s (.tick i) = some t) :
    (s.disp.ctl ≠ .user ∧ ∃ d, Pend.tick s.disp = some d ∧
      t = { s with disp := d, hist := Running.told s.disp d ++ s.hist }) ∨
    (s.disp.ctl = .user ∧ ∃ f fs, s.frames = f :: fs ∧ f.base = s.disp.depth ∧
      (∀ e ∈ i.feeds, e.1 ≠ .pendingW ∧ isFork e.1 = false) ∧ t = s.resume f fs i) := by
  simp only [step] at hs
  split at hs
  · rename_i hc
    obtain ⟨d, hd, rfl⟩ := Option.map_eq_some_iff.mp hs
    exact .inl ⟨hc, d, hd, rfl⟩
  · rename_i hc
    split at hs
    · rename_i f fs hf
      split at hs
      · rename_i hi
        cases hs
        exact .inr ⟨not_not.mp hc, f, fs, hf, hi.1, hi.2, rfl⟩
      · cases hs
    · cases hs

theorem passRest_eq (s : Running U) (f : Frame) (fs : List Frame) (i : Pass U) :
    ∃ m : Running U, m.disp = s.disp ∧ m.forks = s.forks ∧
      (s.passRest f fs i = m.leave fs ∨ s.passRest f fs i = (m.feed i.feeds).invoke f.flags f.base .tail fs) := by
  unfold passRest
  split
  · exact ⟨s, rfl, rfl, .inl rfl⟩
  · dsimp only
    refine ⟨_, ?_, ?_, .inr rfl⟩
    all_goals split <;> split <;> rfl

/-- An activation that goes on returns, or feeds and calls `EV_INVOKE_PENDING`. -/
theorem resume_eq (s : Running U) (f : Frame) (fs : List Frame) {i : Pass U}
    (hi : ∀ e ∈ i.feeds, e.1 ≠ .pendingW) : ∃ m : Running U, m.disp = s.disp ∧ m.forks = s.forks ∧
      (s.resume f fs i = m.leave fs ∨ ∃ feeds pos, (∀ e ∈ feeds, e.1 ≠ .pendingW) ∧
        s.resume f fs i = (m.feed feeds).invoke f.flags f.base pos fs) := by
  have hrest : ∀ s : Running U, ∃ m : Running U, m.disp = s.disp ∧ m.forks = s.forks ∧
      (s.passRest f fs i = m.leave fs ∨ ∃ feeds pos, (∀ e ∈ feeds, e.1 ≠ .pendingW) ∧
        s.passRest f fs i = (m.feed feeds).invoke f.flags f.base pos fs) := by
    intro s
    obtain ⟨m, h₁, h₂, h | h⟩ := passRest_eq s f fs i
    · exact ⟨m, h₁, h₂, .inl h⟩
    · exact ⟨m, h₁, h₂, .inr ⟨_, _, hi, h⟩⟩
  have hprepare : ∀ (s : Running U) (b : Bool), ∃ m : Running U, m.disp = s.disp ∧ m.forks = s.forks ∧
      (s.passPrepare b f fs i = m.leave fs ∨ ∃ feeds pos, (∀ e ∈ feeds, e.1 ≠ .pendingW) ∧
        s.passPrepare b f fs i = (m.feed feeds).invoke f.flags f.base pos fs) := by
    intro s b
    unfold passPrepare
    split
    · refine ⟨s, rfl, rfl, .inr ⟨_, _, fun e he => ?_, rfl⟩⟩
      obtain ⟨w, -, rfl⟩ := List.mem_map.mp he
      exact nofun
    · exact hrest s
  have htop : ∀ s : Running U, ∃ m : Running U, m.disp = s.disp ∧ m.forks = s.forks ∧
      (s.passTop f fs i = m.leave fs ∨ ∃ feeds pos, (∀ e ∈ feeds, e.1 ≠ .pendingW) ∧
        s.passTop f fs i = (m.feed feeds).invoke f.flags f.base pos fs) := by
    intro s
    have hpid : (s.checkPid i.pid).disp = s.disp ∧ (s.checkPid i.pid).forks = s.forks := by
      unfold checkPid
      split <;> exact ⟨rfl, rfl⟩
    unfold passTop
    dsimp only
    generalize s.checkPid i.pid = s' at hpid ⊢
    split
    · refine ⟨s', hpid.1, hpid.2, .inr ⟨_, _, fun e he => ?_, rfl⟩⟩
      obtain ⟨w, -, rfl⟩ := List.mem_map.mp he
      exact nofun
    · obtain ⟨m, h₁, h₂, h⟩ := hprepare s' false
      exact ⟨m, h₁.trans hpid.1, h₂.trans hpid.2, h⟩
  unfold resume
  split
  · exact htop s
  · exact hprepare s true
  · exact hrest s
  · split
    · exact htop s
    · exact ⟨s, rfl, rfl, .inl rfl⟩

theorem Base.dispatch (h : Base s) (hc : s.disp.ctl ≠ .user) (hd : Pend.tick s.disp = some d) (hist : List (Ev U)) :
    Base { s with disp := d, hist := hist } := by
  have hinv := inv_tick h.pend hd
  have hlt := fun f hf => (h.deep f hf).2 hc
  rcases Pend.tick_cases hd with ⟨-, rfl⟩ | ⟨-, j, -, rfl⟩ | ⟨-, -, -, rfl⟩ | ⟨ht, hcnt, hpri, rfl⟩
  · exact ⟨hinv, h.dummy, h.nested, fun f hf => ⟨(hlt f hf).le, fun _ => hlt f hf⟩,
      fun hr => (by cases hr.1), h.placed⟩
  · refine ⟨hinv, h.dummy, h.nested, fun f hf => ⟨(hlt f hf).le, fun _ => hlt f hf⟩, fun hr => ?_, h.placed⟩
    obtain ⟨f, hf, he⟩ := hr.2
    exact absurd he (ne_of_lt (hlt f hf))
  · exact ⟨hinv, h.dummy, h.nested, fun f hf => ⟨(hlt f hf).le, fun _ => hlt f hf⟩,
      fun hr => (by cases hr.1), h.placed⟩
  · refine ⟨hinv, h.dummy, h.nested, fun f hf => ⟨?_, fun hne => absurd rfl hne⟩, fun _ q => ?_, h.placed⟩
    · have hb := hlt f hf
      show f.base ≤ s.disp.depth - 1
      omega
    · have ha := h.pend.test ht
      rw [hpri] at ha hcnt
      rcases Nat.eq_zero_or_pos q with rfl | hq
      · exact hcnt
      · exact ha q hq

theorem Base.step {a : Act U} (h : Base s) (hs : step s a = some t) : Base t := by
  cases a with
  | user a =>
    simp only [Forks.step, Option.ite_none_right_eq_some, Option.map_eq_some_iff] at hs
    obtain ⟨⟨hu, ha⟩, d, hd, rfl⟩ := hs
    obtain ⟨h₁, h₂⟩ := call_frame ha hd
    exact h.stay hu (inv_call h.pend hu.1 hd) h₁ h₂ rfl h.placed
  | evForkStart w =>
    simp only [Forks.step, Option.ite_none_right_eq_some, Option.some.injEq] at hs
    obtain ⟨hu, rfl⟩ := hs
    unfold evForkStart
    split
    · exact h
    · rename_i hw
      refine h.stay hu (inv_call (a := .start (.fork w)) h.pend hu.1 rfl) rfl (le_refl _) rfl ?_
      exact h.placed.start (not_not.mp hw)
  | evForkStop w =>
    simp only [Forks.step, Option.ite_none_right_eq_some, Option.some.injEq] at hs
    obtain ⟨hu, rfl⟩ := hs
    have hinv := h.pend.cleared hu.1 (.fork w)
    have hW := (clearPending_frame s.disp.pend (.fork w)).1
    unfold evForkStop
    dsimp only
    split
    · exact h.stay hu hinv hW (le_refl _) rfl h.placed
    · rename_i hw
      exact h.stay hu hinv hW (le_refl _) rfl (h.placed.stop hw)
  | evLoopFork =>
    simp only [Forks.step, Option.ite_none_right_eq_some, Option.some.injEq] at hs
    obtain ⟨hu, rfl⟩ := hs
    exact h.stay hu h.pend rfl (le_refl _) rfl h.placed
  | epollRecreate =>
    simp only [Forks.step, Option.ite_none_right_eq_some, Option.some.injEq] at hs
    obtain ⟨hu, rfl⟩ := hs
    exact h.stay hu h.pend rfl (le_refl _) rfl h.placed
  | evBreak how =>
    simp only [Forks.step, Option.ite_none_right_eq_some, Option.some.injEq] at hs
    obtain ⟨hu, rfl⟩ := hs
    exact h.stay hu h.pend rfl (le_refl _) rfl h.placed
  | evRun flags =>
    simp only [Forks.step, Option.ite_none_right_eq_some, Option.some.injEq] at hs
    obtain ⟨hu, rfl⟩ := hs
    refine ⟨inv_call (a := .invokePending) h.pend hu.1 rfl, h.dummy, ?_, fun f hf => ?_, fun hr => ?_, h.placed⟩
    · refine List.pairwise_cons.mpr ⟨fun g hg => ?_, h.nested⟩
      cases hfs : s.frames with
      | nil =>
        rw [hfs] at hg
        cases hg
      | cons f fs =>
        have hlt : f.base < s.disp.depth := h.above hu f (by rw [hfs]; rfl)
        have hpair := h.nested
        rw [hfs, List.pairwise_cons] at hpair
        rw [hfs] at hg
        rcases List.mem_cons.mp hg with rfl | hg
        · exact hlt
        · exact (hpair.1 g hg).trans hlt
    · cases hf
      exact ⟨Nat.le_succ _, fun _ => Nat.lt_succ_self _⟩
    · cases hr.1
  | tick i =>
    rcases tick_cases hs with ⟨hc, d, hd, rfl⟩ | ⟨hc, f, fs, hf, hb, hi, rfl⟩
    · exact h.dispatch hc hd _
    · obtain ⟨m, hm, hk, heq | ⟨feeds, pos, hne, heq⟩⟩ := resume_eq s f fs fun e he => (hi e he).1
      · rw [heq]
        exact h.leave hf hb m hm hk
      · rw [heq]
        exact h.invoke hf hc hb feeds hne pos m hm hk

theorem base_run {acts : List (Act U)} (hrun : Runs s acts t) (h : Base s) : Base t :=
  Run.invariant (fun _ _ _ h hs => h.step hs) hrun h

/-! ### What the conditions keep -/

/-- The activations in the call that invokes the fork watchers. -/
def Waiting : List Frame → Prop
  | [] => False
  | f :: fs => f.pos = .forks ∨ (f.pos = .entry ∧ Waiting fs)

/-- Whoever is told has been marked, and whoever was marked is told or will be queued. -/
structure Good (s : Running U) : Prop where
  told : Told s.hist
  marked : ∀ w, Due s.disp w → MarkedSince w s.hist
  waiting : ∀ w, Due s.disp w → Waiting s.frames
  fresh : s.Marked → (∀ f ∈ s.frames, f.pos.forked = false) → ∀ w, MarkedSince w s.hist
  owed : ∀ w, Owed w s.hist → Due s.disp w ∨
    (s.Marked ∧ w ∈ s.forkers ∧ ∀ f ∈ s.frames, f.pos.window = false)

theorem good_init [Inhabited U] (curpid : ℕ) : Good (init (U := U) curpid) := by
  refine ⟨trivial, fun w hw => ?_, fun w hw => ?_, fun hm => absurd rfl hm.1, fun w hw => hw.elim⟩
  all_goals
    obtain ⟨r, hr, -⟩ := hw
    cases hr

theorem Waiting.forked {fs : List Frame} (h : Waiting fs) : ∃ f ∈ fs, f.pos.forked = true := by
  induction fs with
  | nil => exact h.elim
  | cons f fs ih =>
    rcases h with h | ⟨-, h⟩
    · exact ⟨f, List.mem_cons_self, by rw [h]; rfl⟩
    · obtain ⟨g, hg, hf⟩ := ih h
      exact ⟨g, List.mem_cons_of_mem _ hg, hf⟩

section

omit [DecidableEq U]

theorem marked_recreate (s : Running U) :
    ({ s with postfork := s.postfork ||| 2 } : Running U).Marked ↔ s.Marked := by
  show (s.postfork ||| 2 ≠ 0 ∧ s.postfork ||| 2 ≠ 2) ↔ (s.postfork ≠ 0 ∧ s.postfork ≠ 2)
  generalize s.postfork = x
  revert x
  decide

end

/-- What is due changes for nobody, or only falls away for those who are not still to be told. -/
theorem Good.congr (h : Good s) (hh : t.hist = s.hist) (hf : t.frames = s.frames) (hm : t.Marked ↔ s.Marked)
    (hk : ∀ w, Owed w s.hist → w ∈ s.forkers → w ∈ t.forkers) (hd : ∀ w, Due t.disp w → Due s.disp w)
    (hd' : ∀ w, Owed w s.hist → Due s.disp w → Due t.disp w) : Good t := by
  refine ⟨hh ▸ h.told, fun w hw => hh ▸ h.marked w (hd w hw), fun w hw => hf ▸ h.waiting w (hd w hw),
    fun hm' hfs => ?_, fun w hw => ?_⟩
  · rw [hh]
    exact h.fresh (hm.mp hm') (hf ▸ hfs)
  · rw [hh] at hw
    rcases h.owed w hw with hdue | ⟨h₁, h₂, h₃⟩
    · exact .inl (hd' w hw hdue)
    · exact .inr ⟨hm.mpr h₁, hk w hw h₂, hf ▸ h₃⟩

/-- User code feeds, clears, stops and starts. -/
theorem Good.user {a : Pend.Act (Watcher U)} (h : Good s) (ha : Usable a) (hw : Within s (.user a))
    (hd : Pend.call s.disp a = some d) : Good { s with disp := d } := by
  cases a with
  | feedEvent w' revents =>
    simp only [call] at hd
    split at hd
    · cases hd
    · cases hd
      have hplain : ∀ w, w' = .fork w → revents &&& evFork = 0 := by
        rintro w rfl
        exact hw
      have hdue : ∀ w, Due { s.disp with
          pend := s.disp.pend.evFeedEvent w' revents, log := .fed w' revents :: s.disp.log } w ↔ Due s.disp w := by
        intro w
        rw [due_fed rfl]
        exact or_iff_right fun hc => hc.2 (hplain w hc.1)
      exact h.congr rfl rfl Iff.rfl (fun _ _ h => h) (fun w => (hdue w).mp) fun w _ => (hdue w).mpr
  | clearPending w' =>
    cases hd
    refine h.congr rfl rfl Iff.rfl (fun _ _ h => h) (fun w hdue => ((due_cleared rfl).mp hdue).2)
      fun w ho hdue => (due_cleared rfl).mpr ⟨?_, hdue⟩
    rintro rfl
    exact hw ho
  | stop w' =>
    cases hd
    refine h.congr rfl rfl Iff.rfl (fun _ _ h => h) (fun w hdue => ((due_cleared rfl).mp hdue).2)
      fun w ho hdue => (due_cleared rfl).mpr ⟨?_, hdue⟩
    rintro rfl
    cases ha.2
  | start w' =>
    cases hd
    exact h.congr rfl rfl Iff.rfl (fun _ _ h => h) (fun w => id) fun w _ => id
  | setPriority w' pri =>
    simp only [call] at hd
    split at hd
    · cases hd
      exact h.congr rfl rfl Iff.rfl (fun _ _ h => h) (fun w => id) fun w _ => id
    · cases hd
  | invokePending =>
    cases hd
    exact h.congr rfl rfl Iff.rfl (fun _ _ h => h) (fun w => id) fun w _ => id
  | ret =>
    simp only [call] at hd
    split at hd
    · cases hd
    · cases hd
      exact h.congr rfl rfl Iff.rfl (fun _ _ h => h) (fun w => id) fun w _ => id
  | feedReverse w => exact ha.elim
  | feedReverseDone revents => exact ha.elim
  | queueEvents events type => exact ha.elim
  | tick => exact ha.elim

/-- An invocation tells a fork watcher of a fork when that was due, and nobody otherwise. -/
theorem told_invoked (hinv : Pend.Inv d') {w' : Watcher U} {revents : Events} (hW : d'.pend.pendingW = .pendingW)
    (hl : d'.log = .invoked w' revents :: d.log) :
    (Running.told d d' = [] ∧ ∀ w, w' = .fork w → ¬ Due d w) ∨
    ∃ w, w' = .fork w ∧ Running.told d d' = [.invoked w] ∧ Due d w := by
  have hev : ∀ w, w' = .fork w → (revents &&& evFork ≠ 0 ↔ Due d w) := by
    rintro w rfl
    obtain ⟨-, he⟩ := hinv.handed [] _ _ _ hl (by rw [hW]; exact nofun)
    rw [he]
    exact orAll_and
  have hlen : d.log.length < d'.log.length := by
    rw [hl]
    exact Nat.lt_succ_self _
  unfold Running.told
  rw [if_pos hlen, hl]
  cases w' with
  | fork w =>
    dsimp only
    by_cases hr : revents &&& evFork ≠ 0
    · rw [if_pos hr]
      exact .inr ⟨w, rfl, rfl, (hev w rfl).mp hr⟩
    · rw [if_neg hr]
      exact .inl ⟨rfl, fun w he hdue => hr ((hev w he).mpr hdue)⟩
  | _ => exact .inl ⟨rfl, nofun⟩

section

omit [DecidableEq U]

theorem told_same (hl : d'.log = d.log) : Running.told d d' = [] := by
  unfold Running.told
  rw [if_neg (by rw [hl]; exact lt_irrefl _)]

end

theorem Good.dispatch (h : Good s) (hb : Base s) (hc : s.disp.ctl ≠ .user) (hd : Pend.tick s.disp = some d) :
    Good { s with disp := d, hist := Running.told s.disp d ++ s.hist } := by
  have hbase := hb.dispatch hc hd s.hist
  have hsame : d.log = s.disp.log → Good { s with disp := d, hist := Running.told s.disp d ++ s.hist } := by
    intro hl
    rw [told_same hl]
    exact h.congr rfl rfl Iff.rfl (fun _ _ h => h) (fun w => (due_log hl).mp) fun w _ => (due_log hl).mpr
  rcases Pend.tick_cases hd with ⟨-, rfl⟩ | ⟨-, j, -, rfl⟩ | ⟨-, -, -, rfl⟩ | ⟨-, -, -, rfl⟩
  · exact hsame rfl
  · rcases told_invoked hbase.pend hbase.dummy rfl with ⟨htold, hno⟩ | ⟨w₀, hw₀, htold, hdue₀⟩
    · rw [htold]
      refine h.congr rfl rfl Iff.rfl (fun _ _ h => h) (fun w hdue => ((due_invoked rfl).mp hdue).2)
        fun w _ hdue => (due_invoked rfl).mpr ⟨fun he => hno w he hdue, hdue⟩
    · rw [htold]
      let d' : Dispatch (Watcher U) := { s.disp with
        pend := s.disp.pend.pop s.disp.pend.pendingpri
        ctl := .user
        log := .invoked (s.disp.pend.entry s.disp.pend.pendingpri j).w
          (s.disp.pend.entry s.disp.pend.pendingpri j).events :: s.disp.log }
      have hdue : ∀ w, Due d' w ↔ _ := fun w => due_invoked rfl
      have hne : ∀ w, Due _ w → w₀ ≠ w ∧ Due s.disp w := fun w hw => by
        obtain ⟨h₁, h₂⟩ := (hdue w).mp hw
        refine ⟨fun he => h₁ ?_, h₂⟩
        rw [hw₀, he]
      refine ⟨⟨h.marked w₀ hdue₀, h.told⟩, fun w hw => ?_, fun w hw => ?_, fun _ hfs => ?_, fun w hw => ?_⟩
      · exact ⟨(hne w hw).1, h.marked w (hne w hw).2⟩
      · exact h.waiting w (hne w hw).2
      · obtain ⟨f, hf, hforked⟩ := (h.waiting w₀ hdue₀).forked
        rw [hfs f hf] at hforked
        cases hforked
      · rcases h.owed w hw.2 with hold | hold
        · refine .inl ((hdue w).mpr ⟨fun he => hw.1 ?_, hold⟩)
          rw [hw₀] at he
          exact (Watcher.fork.inj he)
        · exact .inr hold
  · exact hsame rfl
  · exact hsame rfl

/-! ### A pass -/

/-- An activation goes on, with nothing due. -/
structure Calm (s : Running U) : Prop where
  pend : Pend.Inv s.disp
  user : s.disp.ctl = .user
  dummy : s.disp.pend.pendingW = .pendingW
  idle : ∀ w, ¬ Due s.disp w
  told : Told s.hist

variable {f : Frame} {fs : List Frame} {i : Pass U}

/-- `EV_INVOKE_PENDING` with something fed before it. -/
theorem Calm.invoke (h : Calm s) {feeds : List (Watcher U × Events)} {flags : BitVec 32} {base : ℕ} {pos : At}
    (hne : ∀ e ∈ feeds, e.1 ≠ .pendingW)
    (hdue : ∀ w, ∀ e ∈ feeds, e.1 = .fork w → pos = .forks ∧ MarkedSince w s.hist)
    (hfresh : pos.forked = false → s.Marked → (∀ g ∈ fs, g.pos.forked = false) → ∀ w, MarkedSince w s.hist)
    (howed : ∀ w, Owed w s.hist → ∃ e ∈ feeds, e.1 = .fork w ∧ e.2 &&& evFork ≠ 0) :
    Good ((s.feed feeds).invoke flags base pos fs) := by
  obtain ⟨-, -, -, -, hd⟩ := feed_spec feeds h.pend h.user h.dummy hne
  have hd' : ∀ w, Due ((s.feed feeds).invoke flags base pos fs).disp w ↔
      ∃ e ∈ feeds, e.1 = .fork w ∧ e.2 &&& evFork ≠ 0 := fun w =>
    (due_log rfl).trans ((hd w).trans (or_iff_left (h.idle w)))
  refine ⟨h.told, fun w hw => ?_, fun w hw => ?_, fun hm hfs => ?_, fun w hw => .inl ((hd' w).mpr (howed w hw))⟩
  · obtain ⟨e, he, hew, -⟩ := (hd' w).mp hw
    exact (hdue w e he hew).2
  · obtain ⟨e, he, hew, -⟩ := (hd' w).mp hw
    exact .inl (hdue w e he hew).1
  · exact hfresh (hfs _ List.mem_cons_self) hm fun g hg => hfs g (List.mem_cons_of_mem _ hg)

theorem Calm.leave (h : Calm s)
    (hfresh : s.Marked → (∀ g ∈ fs, g.pos.forked = false) → ∀ w, MarkedSince w s.hist)
    (howed : ∀ w, Owed w s.hist → s.Marked ∧ w ∈ s.forkers ∧ ∀ g ∈ fs, g.pos.window = false) :
    Good (s.leave fs) :=
  ⟨h.told, fun w hw => absurd hw (h.idle w), fun w hw => absurd hw (h.idle w), hfresh,
    fun w hw => .inr (howed w hw)⟩

theorem Calm.passRest (h : Calm s) (hi : ∀ e ∈ i.feeds, e.1 ≠ .pendingW ∧ isFork e.1 = false)
    (hno : ∀ w, ¬ Owed w s.hist)
    (hfresh : s.loopDone ≠ .cancel → s.Marked → (∀ g ∈ fs, g.pos.forked = false) → ∀ w, MarkedSince w s.hist) :
    Good (s.passRest f fs i) := by
  unfold Running.passRest
  by_cases hl : s.loopDone ≠ .cancel
  · rw [if_pos hl]
    exact h.leave (hfresh hl) fun w hw => absurd hw (hno w)
  · rw [if_neg hl]
    dsimp only
    obtain ⟨m, hm⟩ : ∃ m : Running U, m = if s.postfork ≠ 0 then { s with postfork := 0 } else s := ⟨_, rfl⟩
    have hz : m.postfork = 0 ∧ m.disp = s.disp ∧ m.hist = s.hist := by
      rw [hm]
      split
      · exact ⟨rfl, rfl, rfl⟩
      · rename_i hp
        exact ⟨not_not.mp hp, rfl, rfl⟩
    rw [← hm]
    have hcalm : Calm { m with hist := .polled :: m.hist } := by
      refine ⟨?_, ?_, ?_, ?_, ?_⟩
      all_goals dsimp only
      · exact hz.2.1 ▸ h.pend
      · exact hz.2.1 ▸ h.user
      · exact hz.2.1 ▸ h.dummy
      · exact hz.2.1 ▸ h.idle
      · rw [hz.2.2]
        exact ⟨hno, h.told⟩
    have hunmarked : ¬ ({ m with hist := .polled :: m.hist } : Running U).Marked := fun hc => hc.1 hz.1
    have hno' : ∀ w, ¬ Owed w (.polled :: m.hist) := fun w hw => hno w (hz.2.2 ▸ hw)
    have hplain : ∀ w, ∀ e ∈ i.feeds, e.1 = .fork w → (At.tail = .forks ∧ MarkedSince w (.polled :: m.hist)) := by
      intro w e he hew
      have := (hi e he).2
      rw [hew] at this
      cases this
    by_cases hr : i.recreate = true
    · rw [if_pos hr]
      have hcalm' : Calm { m with hist := .polled :: m.hist, postfork := m.postfork ||| 2 } :=
        ⟨hcalm.pend, hcalm.user, hcalm.dummy, hcalm.idle, hcalm.told⟩
      exact hcalm'.invoke (fun e he => (hi e he).1) hplain
        (fun _ hm' => absurd ((marked_recreate _).mp hm') hunmarked) fun w hw => absurd hw (hno' w)
    · rw [if_neg hr]
      exact hcalm.invoke (fun e he => (hi e he).1) hplain (fun _ hm' => absurd hm' hunmarked)
        fun w hw => absurd hw (hno' w)

theorem Calm.passPrepare (h : Calm s) (hi : ∀ e ∈ i.feeds, e.1 ≠ .pendingW ∧ isFork e.1 = false) {forked : Bool}
    (hno : ∀ w, ¬ Owed w s.hist)
    (hfresh : forked = false → s.Marked → (∀ g ∈ fs, g.pos.forked = false) → ∀ w, MarkedSince w s.hist)
    (hleft : forked = true → i.prepares = [] → s.loopDone ≠ .cancel → ¬ s.Marked) :
    Good (s.passPrepare forked f fs i) := by
  unfold Running.passPrepare
  by_cases hp : i.prepares ≠ []
  · rw [if_pos hp]
    refine h.invoke (fun e he => ?_) (fun w e he hew => ?_) hfresh fun w hw => absurd hw (hno w)
    · obtain ⟨w, -, rfl⟩ := List.mem_map.mp he
      exact nofun
    · obtain ⟨w', -, rfl⟩ := List.mem_map.mp he
      cases hew
  · rw [if_neg hp]
    refine h.passRest hi hno fun hl hm => ?_
    cases hfk : forked with
    | false => exact hfresh hfk hm
    | true => exact absurd hm (hleft hfk (not_not.mp hp) hl)

theorem Calm.passTop (h : Calm s) (hi : ∀ e ∈ i.feeds, e.1 ≠ .pendingW ∧ isFork e.1 = false)
    (hfresh : s.Marked → (∀ g ∈ fs, g.pos.forked = false) → ∀ w, MarkedSince w s.hist)
    (howed : ∀ w, Owed w s.hist → s.Marked ∧ w ∈ s.forkers)
    (hw : s.curpid = 0 ∨ i.pid = s.curpid → s.postfork ≠ 0 → s.forks.cnt 0 ≠ 0 →
      s.postfork ≠ 2 ∧ ∀ g ∈ fs, g.pos.forked = false) :
    Good (s.passTop f fs i) := by
  obtain ⟨m, hm⟩ : ∃ m, m = s.checkPid i.pid := ⟨_, rfl⟩
  have hmem : s.forks.cnt 0 = 0 → ∀ w, w ∉ s.forkers := by
    intro hz w hw'
    obtain ⟨j, hj, -⟩ := Slots.mem_toList.mp hw'
    omega
  have hfacts : Calm m ∧ m.forks = s.forks ∧
      (m.Marked → (∀ g ∈ fs, g.pos.forked = false) → ∀ w, MarkedSince w m.hist) ∧
      (∀ w, Owed w m.hist → m.postfork ≠ 0 ∧ w ∈ s.forkers) ∧
      (m.postfork ≠ 0 → m.forks.cnt 0 ≠ 0 → ∀ w, MarkedSince w m.hist) := by
    rw [hm]
    unfold checkPid
    by_cases hp : s.curpid ≠ 0 ∧ i.pid ≠ s.curpid
    · rw [if_pos hp]
      refine ⟨⟨h.pend, h.user, h.dummy, h.idle, h.told⟩, rfl, fun _ _ _ => trivial, fun w hw' => ⟨nofun, ?_⟩,
        fun _ _ _ => trivial⟩
      rcases hw' with hw' | hw'
      · exact hw'
      · exact (howed w hw').2
    · rw [if_neg hp]
      refine ⟨h, rfl, hfresh, fun w hw' => ⟨(howed w hw').1.1, (howed w hw').2⟩, fun h0 hc => ?_⟩
      obtain ⟨h2, hfs⟩ := hw (by rw [not_and_or, not_not, not_not] at hp; exact hp) h0 hc
      exact hfresh ⟨h0, h2⟩ hfs
  obtain ⟨hcalm, hk, hfresh', howed', hmarked⟩ := hfacts
  unfold Running.passTop
  dsimp only
  rw [← hm]
  by_cases hq : m.postfork ≠ 0 ∧ m.forks.cnt 0 ≠ 0
  · rw [if_pos hq]
    refine hcalm.invoke (fun e he => ?_) (fun w e he hew => ⟨rfl, hmarked hq.1 hq.2 w⟩) (fun hc => by cases hc)
      fun w hw' => ⟨(.fork w, evFork), List.mem_map.mpr ⟨w, ?_, rfl⟩, rfl, show evFork &&& evFork ≠ 0 by decide⟩
    · obtain ⟨w, -, rfl⟩ := List.mem_map.mp he
      exact nofun
    · show w ∈ m.forks.toList 0
      rw [hk]
      exact (howed' w hw').2
  · rw [if_neg hq]
    refine hcalm.passPrepare hi (fun w hw' => ?_) (fun _ => hfresh') (fun hc => by cases hc)
    obtain ⟨h0, hin⟩ := howed' w hw'
    refine hmem ?_ w hin
    rw [← hk]
    by_contra hc
    exact hq ⟨h0, hc⟩

theorem Good.resume (h : Good s) (hb : Base s) (hc : s.disp.ctl = .user) (hf : s.frames = f :: fs)
    (hbase : f.base = s.disp.depth) (hi : ∀ e ∈ i.feeds, e.1 ≠ .pendingW ∧ isFork e.1 = false)
    (hw : Within s (.tick i)) : Good (s.resume f fs i) := by
  obtain ⟨hw₁, hw₂⟩ : s.FindsMark f fs i ∧ s.NotLeft f i := by
    simp only [Within, hf] at hw
    exact hw hc
  have hidle : ∀ w, ¬ Due s.disp w :=
    not_due hb.pend (hb.idle ⟨hc, f, by rw [hf]; rfl, hbase⟩)
  have hcalm : Calm s := ⟨hb.pend, hc, hb.dummy, hidle, h.told⟩
  have howed : ∀ w, Owed w s.hist → s.Marked ∧ w ∈ s.forkers ∧ ∀ g ∈ s.frames, g.pos.window = false :=
    fun w ho => (h.owed w ho).resolve_left (hidle w)
  have hfresh : f.pos.forked = false → s.Marked → (∀ g ∈ fs, g.pos.forked = false) → ∀ w, MarkedSince w s.hist := by
    intro hfk hm hfs
    refine h.fresh hm fun g hg => ?_
    rw [hf] at hg
    rcases List.mem_cons.mp hg with rfl | hg
    · exact hfk
    · exact hfs g hg
  -- nobody is still to be told once the test for a fork is past
  have hwindow : f.pos.window = true → ∀ w, ¬ Owed w s.hist := by
    intro hwin w ho
    have hno := (howed w ho).2.2 f (by rw [hf]; exact List.mem_cons_self)
    rw [hwin] at hno
    cases hno
  have htop : f.pos.forked = false → s.TestsFork f i → Good (s.passTop f fs i) := fun hfk ht =>
    hcalm.passTop hi (hfresh hfk) (fun w ho => ⟨(howed w ho).1, (howed w ho).2.1⟩) (hw₁ ht)
  unfold Running.resume
  cases hpos : f.pos with
  | entry => exact htop (by rw [hpos]; rfl) (.inl hpos)
  | forks =>
    exact hcalm.passPrepare hi (hwindow (by rw [hpos]; rfl)) (fun hc => by cases hc)
      fun _ hp hl => hw₂ (by rw [hpos]; rfl) (fun _ => hp) hl
  | prepares forked =>
    refine hcalm.passRest hi (hwindow (by rw [hpos]; rfl)) fun hl hm hfs => ?_
    cases hfk : forked with
    | false => exact hfresh (by rw [hpos]; exact hfk) hm hfs
    | true =>
      exact absurd hm (hw₂ (by rw [hpos]; exact hfk) (fun he => by rw [hpos] at he; cases he) hl)
  | tail =>
    dsimp only
    have hfk : f.pos.forked = false := by rw [hpos]; rfl
    by_cases ha : s.again f i
    · rw [if_pos ha]
      exact htop hfk (.inr ⟨hpos, ha⟩)
    · rw [if_neg ha]
      refine hcalm.leave (hfresh hfk) fun w ho => ?_
      obtain ⟨h₁, h₂, h₃⟩ := howed w ho
      exact ⟨h₁, h₂, fun g hg => h₃ g (by rw [hf]; exact List.mem_cons_of_mem _ hg)⟩

/-! ### Every run -/

theorem Good.forkStop (h : Good s) (hpl : s.forks.Placed) {w : ForkW U} (hw : ¬ Owed w s.hist) :
    Good (s.evForkStop w) := by
  have hdue : ∀ w', Due { s.disp with
      pend := s.disp.pend.clearPending (.fork w), log := .cleared (.fork w) :: s.disp.log } w' ↔ _ :=
    fun w' => due_cleared rfl
  have hkept : ∀ w', Owed w' s.hist → w ≠ w' := by
    rintro w' ho rfl
    exact hw ho
  unfold evForkStop
  dsimp only
  split
  · exact h.congr rfl rfl Iff.rfl (fun _ _ h => h) (fun w' hd => ((hdue w').mp hd).2)
      fun w' ho hd => (hdue w').mpr ⟨fun he => hkept w' ho (Watcher.fork.inj he), hd⟩
  · rename_i ha
    exact h.congr rfl rfl Iff.rfl (fun w' ho hm => hpl.mem_stop ha (hkept w' ho).symm hm)
      (fun w' hd => ((hdue w').mp hd).2)
      fun w' ho hd => (hdue w').mpr ⟨fun he => hkept w' ho (Watcher.fork.inj he), hd⟩

theorem Good.forkStart (h : Good s) (hpl : s.forks.Placed) (w : ForkW U) : Good (s.evForkStart w) := by
  unfold evForkStart
  split
  · exact h
  · rename_i hw
    have hstart := hpl.start (not_not.mp hw)
    refine h.congr rfl rfl Iff.rfl (fun w' _ hm => ?_) (fun _ => id) fun _ _ => id
    show w' ∈ (s.forks.start 0 w).toList 0
    rw [hstart.mem_iff]
    exact Slots.active_start w (hpl.mem_iff.mp hm)

theorem Good.loopFork (h : Good s) : Good s.evLoopFork := by
  refine ⟨h.told, fun w _ => trivial, h.waiting, fun _ _ _ => trivial, fun w hw => ?_⟩
  have hmark : s.evLoopFork.Marked := by
    show (1 : BitVec 8) ≠ 0 ∧ (1 : BitVec 8) ≠ 2
    decide
  rcases hw with hw | hw
  · split at hw
    · rename_i hall
      refine .inr ⟨hmark, hw, fun f hf => ?_⟩
      simpa using List.all_eq_true.mp hall f hf
    · cases hw
  · rcases h.owed w hw with hd | ⟨-, h₂, h₃⟩
    · exact .inl hd
    · exact .inr ⟨hmark, h₂, h₃⟩

theorem Good.step {a : Act U} (h : Good s) (hb : Base s) (hw : Within s a) (hs : step s a = some t) : Good t := by
  cases a with
  | user a =>
    simp only [Forks.step, Option.ite_none_right_eq_some, Option.map_eq_some_iff] at hs
    obtain ⟨⟨-, ha⟩, d, hd, rfl⟩ := hs
    exact h.user ha hw hd
  | evForkStart w =>
    simp only [Forks.step, Option.ite_none_right_eq_some, Option.some.injEq] at hs
    obtain ⟨-, rfl⟩ := hs
    exact h.forkStart hb.placed w
  | evForkStop w =>
    simp only [Forks.step, Option.ite_none_right_eq_some, Option.some.injEq] at hs
    obtain ⟨-, rfl⟩ := hs
    exact h.forkStop hb.placed hw
  | evLoopFork =>
    simp only [Forks.step, Option.ite_none_right_eq_some, Option.some.injEq] at hs
    obtain ⟨-, rfl⟩ := hs
    exact h.loopFork
  | epollRecreate =>
    simp only [Forks.step, Option.ite_none_right_eq_some, Option.some.injEq] at hs
    obtain ⟨-, rfl⟩ := hs
    exact h.congr rfl rfl (marked_recreate s) (fun _ _ h => h) (fun _ => id) fun _ _ => id
  | evBreak how =>
    simp only [Forks.step, Option.ite_none_right_eq_some, Option.some.injEq] at hs
    obtain ⟨-, rfl⟩ := hs
    exact h.congr rfl rfl Iff.rfl (fun _ _ h => h) (fun _ => id) fun _ _ => id
  | evRun flags =>
    simp only [Forks.step, Option.ite_none_right_eq_some, Option.some.injEq] at hs
    obtain ⟨-, rfl⟩ := hs
    refine ⟨h.told, h.marked, fun w hd => .inr ⟨rfl, h.waiting w hd⟩, fun hm hfs => ?_, fun w ho => ?_⟩
    · exact h.fresh hm fun f hf => hfs f (List.mem_cons_of_mem _ hf)
    · rcases h.owed w ho with hd | ⟨h₁, h₂, h₃⟩
      · exact .inl hd
      · refine .inr ⟨h₁, h₂, fun f hf => ?_⟩
        rcases List.mem_cons.mp hf with rfl | hf
        · rfl
        · exact h₃ f hf
  | tick i =>
    rcases tick_cases hs with ⟨hc, d, hd, rfl⟩ | ⟨hc, f, fs, hf, hbase, hi, rfl⟩
    · exact h.dispatch hb hc hd
    · exact h.resume hb hc hf hbase hi hw

/-! ### The loop gets to its poll -/

/-- The calls of `EV_INVOKE_PENDING` a pass has before its poll, from here. -/
def At.left : At → ℕ
  | .entry => 3
  | .forks => 2
  | .prepares _ => 1
  | .tail => 3

theorem resume_left (s : Running U) (f : Frame) (fs : List Frame) (i : Pass U) :
    (∃ m : Running U, m.disp = s.disp ∧ s.resume f fs i = m.leave fs) ∨
    (∃ l, (s.resume f fs i).hist = .polled :: l) ∨
    ((s.resume f fs i).disp.ctl = .dec ∧ ∃ g, (s.resume f fs i).frames = g :: fs ∧ g.pos.left < f.pos.left) := by
  have hrest : ∀ s : Running U, (∃ m : Running U, m.disp = s.disp ∧ s.passRest f fs i = m.leave fs) ∨
      ∃ l, (s.passRest f fs i).hist = .polled :: l := by
    intro s
    unfold passRest
    split
    · exact .inl ⟨s, rfl, rfl⟩
    · right
      dsimp only
      refine ⟨(if s.postfork ≠ 0 then { s with postfork := 0 } else s).hist, ?_⟩
      split <;> split <;> rfl
  have hprepare : ∀ (s : Running U) (b : Bool),
      (∃ m : Running U, m.disp = s.disp ∧ s.passPrepare b f fs i = m.leave fs) ∨
      (∃ l, (s.passPrepare b f fs i).hist = .polled :: l) ∨
      ((s.passPrepare b f fs i).disp.ctl = .dec ∧
        ∃ g, (s.passPrepare b f fs i).frames = g :: fs ∧ g.pos.left ≤ 1) := by
    intro s b
    unfold passPrepare
    split
    · exact .inr (.inr ⟨rfl, _, rfl, le_refl _⟩)
    · rcases hrest s with h | h
      · exact .inl h
      · exact .inr (.inl h)
  have htop : ∀ s : Running U,
      (∃ m : Running U, m.disp = s.disp ∧ s.passTop f fs i = m.leave fs) ∨
      (∃ l, (s.passTop f fs i).hist = .polled :: l) ∨
      ((s.passTop f fs i).disp.ctl = .dec ∧ ∃ g, (s.passTop f fs i).frames = g :: fs ∧ g.pos.left ≤ 2) := by
    intro s
    have hpid : (s.checkPid i.pid).disp = s.disp := by
      unfold checkPid
      split <;> rfl
    unfold passTop
    dsimp only
    rw [← hpid]
    generalize s.checkPid i.pid = s'
    split
    · exact .inr (.inr ⟨rfl, _, rfl, le_refl _⟩)
    · rcases hprepare s' false with h | h | ⟨h, g, hg, hl⟩
      · exact .inl h
      · exact .inr (.inl h)
      · exact .inr (.inr ⟨h, g, hg, hl.trans (by decide)⟩)
  unfold resume
  cases hpos : f.pos with
  | entry =>
    rcases htop s with h | h | ⟨h, g, hg, hl⟩
    · exact .inl h
    · exact .inr (.inl h)
    · exact .inr (.inr ⟨h, g, hg, Nat.lt_succ_of_le hl⟩)
  | forks =>
    rcases hprepare s true with h | h | ⟨h, g, hg, hl⟩
    · exact .inl h
    · exact .inr (.inl h)
    · exact .inr (.inr ⟨h, g, hg, Nat.lt_succ_of_le hl⟩)
  | prepares b =>
    rcases hrest s with h | h
    · exact .inl h
    · exact .inr (.inl h)
  | tail =>
    dsimp only
    split
    · rcases htop s with h | h | ⟨h, g, hg, hl⟩
      · exact .inl h
      · exact .inr (.inl h)
      · exact .inr (.inr ⟨h, g, hg, Nat.lt_succ_of_le hl⟩)
    · exact .inl ⟨s, rfl, rfl⟩

/-- `ev_invoke_pending` runs on, inside the activations. -/
theorem dispatch_run (i : Pass U) {k : ℕ} (hrun : Pend.Runs s.disp (List.replicate k .tick) d) :
    ∃ hist, Runs s (List.replicate k (.tick i)) { s with disp := d, hist := hist } := by
  induction k generalizing s with
  | zero =>
    cases hrun
    exact ⟨s.hist, .nil s⟩
  | succ k ih =>
    rw [List.replicate_succ] at hrun ⊢
    cases hrun with
    | cons hd hrest =>
      rename_i d₁
      have ht := step_tick hd
      have hc : s.disp.ctl ≠ .user := by
        intro hc
        simp [Pend.tick, hc] at ht
      obtain ⟨hist, hr⟩ := ih (s := { s with disp := d₁, hist := Running.told s.disp d₁ ++ s.hist }) hrest
      refine ⟨hist, .cons ?_ hr⟩
      show Forks.step s (.tick i) = _
      simp only [Forks.step, if_pos hc, ht, Option.map_some]

section

omit [DecidableEq U]

theorem not_inUser (h : ¬ s.InUser) (hc : s.disp.ctl = .user) :
    ∃ f fs, s.frames = f :: fs ∧ f.base = s.disp.depth := by
  cases hf : s.frames with
  | nil => exact absurd ⟨hc, by simp [hf]⟩ h
  | cons f fs =>
    refine ⟨f, fs, rfl, ?_⟩
    by_contra hb
    refine h ⟨hc, fun g hg => ?_⟩
    rw [hf] at hg
    cases hg
    exact hb

end

/-- The loop comes to user code or to its poll. -/
theorem reaches_poll (i : Pass U) (hi : ∀ e ∈ i.feeds, e.1 ≠ .pendingW ∧ isFork e.1 = false) (n : ℕ)
    (hb : Base s) (hn : ∀ f ∈ s.frames.head?, f.pos.left ≤ n) :
    ∃ k t, Runs s (List.replicate k (.tick i)) t ∧ (t.InUser ∨ ∃ l, t.hist = .polled :: l) := by
  induction n generalizing s with
  | zero =>
    have hf : s.frames = [] := by
      cases hf : s.frames with
      | nil => rfl
      | cons f fs =>
        have hz := hn f (by rw [hf]; rfl)
        cases hp : f.pos <;> simp [hp, At.left] at hz
    obtain ⟨k, d, -, hr, hu⟩ := tick_run _ hb.pend (le_refl _)
    obtain ⟨hist, hr⟩ := dispatch_run i hr
    exact ⟨k, _, hr, .inl ⟨hu, by simp [hf]⟩⟩
  | succ n ih =>
    obtain ⟨k, d, -, hr, hu⟩ := tick_run _ hb.pend (le_refl _)
    obtain ⟨hist, hr⟩ := dispatch_run i hr
    have hb' := base_run hr hb
    obtain ⟨t, ht⟩ : ∃ t, t = ({ s with disp := d, hist := hist } : Running U) := ⟨_, rfl⟩
    have htf : t.frames = s.frames := by rw [ht]
    have htu : t.disp.ctl = .user := by rw [ht]; exact hu
    rw [← ht] at hr hb'
    by_cases hin : t.InUser
    · exact ⟨k, t, hr, .inl hin⟩
    · obtain ⟨f, fs, hf, hbase⟩ := not_inUser hin htu
      have hs : Forks.step t (.tick i) = some (t.resume f fs i) := by
        simp only [Forks.step, if_neg (not_not.mpr htu), hf]
        rw [if_pos ⟨hbase, hi⟩]
      have hr' := hr.snoc hs
      rw [← List.replicate_succ'] at hr'
      have hbr := hb'.step hs
      rcases resume_left t f fs i with ⟨m, hm, heq⟩ | ⟨l, hl⟩ | ⟨hc, g, hg, hlt⟩
      · refine ⟨_, _, hr', .inl ⟨?_, fun g hg => ?_⟩⟩
        · rw [heq]
          exact hm ▸ htu
        · have hpair := hb'.nested
          rw [hf, List.pairwise_cons] at hpair
          rw [heq] at hg ⊢
          have hlt := hpair.1 g (List.mem_of_mem_head? hg)
          show g.base ≠ m.disp.depth
          rw [hm, ← hbase]
          exact ne_of_lt hlt
      · exact ⟨_, _, hr', .inr ⟨l, hl⟩⟩
      · have hle : f.pos.left ≤ n + 1 := hn f (by rw [← htf, hf]; rfl)
        obtain ⟨k', u, hru, hu'⟩ := ih hbr fun g' hg' => by
          rw [hg] at hg'
          cases hg'
          omega
        refine ⟨k + 1 + k', u, ?_, hu'⟩
        rw [List.replicate_add]
        exact hr'.append hru

/-! ### Every fork watcher is told once -/

/-- Every run within the conditions has told the fork watchers as it should, and the loop comes to its poll as
far as user code lets it. -/
theorem told_once [Inhabited U] {curpid : ℕ} {acts : List (Act U)}
    (hrun : Run (fun s a t => Within s a ∧ step s a = some t) (init curpid) acts s) :
    Told s.hist ∧
      ∀ i : Pass U, (∀ e ∈ i.feeds, e.1 ≠ .pendingW ∧ isFork e.1 = false) →
        ∃ k t, Runs s (List.replicate k (.tick i)) t ∧ (t.InUser ∨ ∃ l, t.hist = .polled :: l) := by
  have h : Base s ∧ Good s :=
    Run.invariant (I := fun s => Base s ∧ Good s)
      (fun _ _ _ h hs => ⟨h.1.step hs.2, h.2.step h.1 hs.1 hs.2⟩) hrun ⟨base_init curpid, good_init curpid⟩
  refine ⟨h.2.told, fun i hi => reaches_poll i hi 3 h.1 fun f _ => ?_⟩
  cases f.pos <;> simp [At.left]

/-- Steps of the loop that meet nothing, with one process id. -/
def ticks (n : ℕ) (recreate : Bool) : List (Act Unit) := List.replicate n (.tick ⟨1, [], [], recreate, true⟩)

/-- A mark, and the pass that tells the fork watcher of it. -/
def markedRun : List (Act Unit) :=
  List.flatten [[.evForkStart (.user ()), .evLoopFork, .evRun evrunNowait], ticks 17 false, [.user .ret],
    ticks 6 false]

theorem told_once_marked : ∃ s : Running Unit,
    Run (fun s a t => Within s a ∧ step s a = some t) (init 1) markedRun s ∧
      s.hist = [.polled, .invoked (.user ()), .marked [.user ()]] ∧ Told s.hist := by
  have hr : (execFrom (fun s a => if Within s a then step s a else none) (init 1) markedRun).map Running.hist =
      some [.polled, .invoked (.user ()), .marked [.user ()]] := by decide +kernel
  obtain ⟨s, hr, hh⟩ := Option.map_eq_some_iff.mp hr
  have hr' := (Run.iff_execFrom.mpr hr).mono fun s a t h => Option.ite_none_right_eq_some.mp h
  exact ⟨s, hr', hh, (told_once hr').1⟩

/-- epoll asks to be re-created, and the next pass tells the fork watcher of it. -/
def recreateRun : List (Act Unit) :=
  List.flatten [[.evForkStart (.user ()), .evRun evrunNowait], ticks 11 true, ticks 11 false, [.evRun evrunNowait],
    ticks 17 false]

/-- A fork watcher breaks, and the next pass tells it again. -/
def brokenRun : List (Act Unit) :=
  List.flatten [[.evForkStart (.user ()), .evLoopFork, .evRun evrunNowait], ticks 17 false,
    [.evBreak .all, .user .ret], ticks 6 false, [.evRun evrunNowait], ticks 17 false]

theorem told_once_unmarked :
    (∃ s : Running Unit, Runs (init 1) recreateRun s ∧ s.hist = [.invoked (.user ()), .polled] ∧ ¬ Told s.hist) ∧
    ∃ s : Running Unit, Runs (init 1) brokenRun s ∧
      s.hist = [.invoked (.user ()), .invoked (.user ()), .marked [.user ()]] ∧ ¬ Told s.hist := by
  have h₁ : (execFrom step (init 1) recreateRun).map Running.hist = some [.invoked (.user ()), .polled] := by
    decide +kernel
  have h₂ : (execFrom step (init 1) brokenRun).map Running.hist =
      some [.invoked (.user ()), .invoked (.user ()), .marked [.user ()]] := by decide +kernel
  obtain ⟨s₁, hr₁, hh₁⟩ := Option.map_eq_some_iff.mp h₁
  obtain ⟨s₂, hr₂, hh₂⟩ := Option.map_eq_some_iff.mp h₂
  refine ⟨⟨s₁, Run.iff_execFrom.mpr hr₁, hh₁, fun h => ?_⟩, s₂, Run.iff_execFrom.mpr hr₂, hh₂, fun h => ?_⟩
  · rw [hh₁] at h
    exact h.1
  · rw [hh₂] at h
    exact h.1.1 rfl

end Forks

end Qev
