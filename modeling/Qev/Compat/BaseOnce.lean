/-
# event_base_once

`event_base_once` allocates a `struct ev_x_once` and has `ev_once` call `ev_x_once_cb` with it, which calls
the user's callback and then frees it. It is reached from the block of `ev_once` alone, and
`once_reclaim` frees that block without a call.

So each `struct ev_x_once` is freed at most once, and all of them are when `event_base_free` returns exactly if
no block of an `event_base_once` is left for `once_reclaim` (`base_once_freed`).
-/
import Qev.Compat.Event
import Qev.Loop.Destroy

namespace Qev

open Lib

namespace XOnce

/-! ### The model -/

/-- `struct ev_x_once`. -/
structure EvXOnce (C P : Type) where
  fd : ℤ
  cb : Option C
  arg : P

/-- What `ev_once` is given to call. -/
inductive Cb (G : Type)
  | evXOnceCb
  | other (g : G)
  deriving DecidableEq

inductive Ev (X C P : Type)
  | allocated (once : X)
  | called (once : X) (cb : C) (fd : ℤ) (revents : BitVec 16) (arg : P)
  | freed (once : X)
  deriving DecidableEq

/-- A base of `event_base_new`. `running` has the callbacks that run, innermost first, with the `struct ev_x_once`
that is freed when they return; `hist` has the newest first. -/
structure Base (U T X G C P : Type) where
  onces : Once.Onces U T (Cb G) X
  xs : X → Option (EvXOnce C P)
  running : List (Option X)
  hist : List (Ev X C P)

variable {U T X G C P : Type} [DecidableEq U] [LinearOrder T] [Add T] [Sub T] [Zero T] [One T] [DecidableEq X]

def init (loop : Loop U T Unit) : Base U T X G C P := ⟨Once.init loop, fun _ => none, [], []⟩

namespace Base

variable (e : Compat.Setup U T) (s : Base U T X G C P)

/-- `free (once)`. -/
def free (once : X) : Base U T X G C P :=
  { s with xs := Function.update s.xs once none, hist := .freed once :: s.hist }

/-- `ev_x_once_cb`, up to the call of the user's callback. -/
def evXOnceCb (once : X) (revents : Events) : Base U T X G C P :=
  match s.xs once with
  | some ⟨fd, some cb, arg⟩ =>
    { s with running := some once :: s.running, hist := .called once cb fd (revents.setWidth 16) arg :: s.hist }
  | _ => { s.free once with running := none :: s.running }

/-- A callback returns, from `ev_x_once_cb` with its `free (once)`. -/
def returned : Base U T X G C P :=
  match s.running with
  | some once :: running => { s.free once with running := running }
  | _ :: running => { s with running := running }
  | [] => s

/-- `event_base_once`, with what `ev_malloc` and `malloc` answer. -/
def eventBaseOnce (u : U) (once : Option X) (fd : ℤ) (events : Events) (cb : Option C) (arg : P) (tv : Option T) :
    ℤ × Base U T X G C P :=
  let ioEvents := events &&& (evRead ||| evWrite)
  let timeout : T := match tv with
    | some tv => Compat.evTvGet e tv
    | none => if events &&& evTimer ≠ 0 ∧ ioEvents = 0 then 0 else 0 - 1
  match cb with
  | none => (-1, s)
  | some cb =>
    if (fd < 0 ∨ ioEvents = 0) ∧ timeout < 0 then (-1, s)
    else match once with
      | none => (-1, s)
      | some once =>
        (0, { s with
          onces := s.onces.evOnce e.toEnv u fd ioEvents timeout (some .evXOnceCb) once
          xs := Function.update s.xs once (some ⟨fd, some cb, arg⟩)
          hist := .allocated once :: s.hist })

/-- `ev_invoke_pending` takes a watcher: that of `ev_once` calls what it was given. -/
def ticked (t : Once.Onces U T (Cb G) X) : Base U T X G C P :=
  match s.onces.popped with
  | none => { s with onces := t }
  | some _ =>
    match t.hist.take (t.hist.length - s.onces.hist.length) with
    | .called _ .evXOnceCb once revents :: _ => { s with onces := t }.evXOnceCb once revents
    | _ => { s with onces := t, running := none :: s.running }

end Base

/-- What is done on the base: `event_base_once`, `event_base_free` with the active cleanup watchers, and what the
loop and other users of it do. -/
inductive Act (U T X G C P : Type)
  | eventBaseOnce (u : U) (once : Option X) (fd : ℤ) (events : Events) (cb : Option C) (arg : P) (tv : Option T)
  | eventBaseFree (cleanups : List U)
  | loop (a : Once.Act U T (Cb G) X)

/-- `ev_x_once_cb` is private, and the base is freed by `event_base_free`. -/
def Foreign : Once.Act U T (Cb G) X → Prop
  | .evOnce _ _ _ _ (some .evXOnceCb) _ => False
  | .evLoopDestroy _ => False
  | _ => True

instance (a : Once.Act U T (Cb G) X) : Decidable (Foreign a) := by
  unfold Foreign
  split <;> infer_instance

/-- A step of a run: blocks are allocated where none is, and the base is freed outside its callbacks. -/
def step (e : Compat.Setup U T) (s : Base U T X G C P) : Act U T X G C P → Option (Base U T X G C P)
  | .eventBaseOnce u once fd events cb arg tv =>
    if (s.onces.destroyed = false ∧ s.onces.InUser) ∧ s.onces.blocks u = none ∧ (once.bind s.xs).isNone then
      some (s.eventBaseOnce e u once fd events cb arg tv).2
    else none
  | .eventBaseFree cleanups =>
    if s.onces.depth = 0 then
      (Once.step e.toEnv s.onces (.evLoopDestroy cleanups)).map fun t => { s with onces := t }
    else none
  | .loop .tick => (Once.step e.toEnv s.onces .tick).map s.ticked
  | .loop .ret => (Once.step e.toEnv s.onces .ret).map fun t => { s with onces := t }.returned
  | .loop a => if Foreign a then (Once.step e.toEnv s.onces a).map fun t => { s with onces := t } else none

abbrev Runs (e : Compat.Setup U T) (s : Base U T X G C P) (l : List (Act U T X G C P)) (t : Base U T X G C P) :
    Prop := Run (fun s a t => step e s a = some t) s l t

/-- The block an event is about. -/
def Ev.block : Ev X C P → X
  | .allocated once => once
  | .called once .. => once
  | .freed once => once

/-- The history of a block, and whether it is allocated at its end: it is freed once before it is allocated again,
and not used after. -/
inductive Lives (once : X) : List (Ev X C P) → Bool → Prop
  | nil : Lives once [] false
  | other {ev : Ev X C P} {hist : List (Ev X C P)} {held : Bool} :
      ev.block ≠ once → Lives once hist held → Lives once (ev :: hist) held
  | allocated {hist : List (Ev X C P)} : Lives once hist false → Lives once (.allocated once :: hist) true
  | called {hist : List (Ev X C P)} {cb : C} {fd : ℤ} {revents : BitVec 16} {arg : P} :
      Lives once hist true → Lives once (.called once cb fd revents arg :: hist) true
  | freed {hist : List (Ev X C P)} : Lives once hist true → Lives once (.freed once :: hist) false

section

omit [DecidableEq X]

theorem Lives.unique {once : X} {hist : List (Ev X C P)} {held held' : Bool} (h : Lives once hist held)
    (h' : Lives once hist held') : held = held' := by
  induction h generalizing held' with
  | nil =>
    cases h'
    rfl
  | other hne _ ih =>
    cases h' with
    | other _ h' => exact ih h'
    | allocated => exact absurd rfl hne
    | called => exact absurd rfl hne
    | freed => exact absurd rfl hne
  | allocated =>
    cases h' with
    | other hne => exact absurd rfl hne
    | allocated => rfl
  | called =>
    cases h' with
    | other hne => exact absurd rfl hne
    | called => rfl
  | freed =>
    cases h' with
    | other hne => exact absurd rfl hne
    | freed => rfl

end

/-! ### The callbacks that run -/

/-- The number of callbacks that run. -/
def frames {F A : Type} (s : Once.Onces U T F A) : ℕ := if s.ctl = .user then s.depth else s.depth - 1

section

omit [One T]

/-- What a step of `ev_invoke_pending` does to the blocks of `ev_once` and the callbacks that run. -/
theorem tick_blocks {F A : Type} {e : Env U T} {s t : Once.Onces U T F A} (h : Once.Inv e s)
    (hdeep : s.ctl ≠ .user → s.depth ≠ 0) (ht : s.tick e = some t) :
    t.destroying = s.destroying ∧ (t.ctl ≠ .user → t.depth ≠ 0) ∧
    ((s.popped = none ∧ frames t = frames s ∧ t.hist = s.hist ∧ t.blocks = s.blocks) ∨
      ((∃ w, s.popped = some w) ∧ frames t = frames s + 1 ∧
        ((t.hist = s.hist ∧ t.blocks = s.blocks) ∨
          ∃ u b revents, s.blocks u = some b ∧ t.blocks = Function.update s.blocks u none ∧
            t.hist = .called u b.cb b.arg revents :: .freed u :: s.hist))) := by
  unfold frames
  rcases Once.tick_control ht with ⟨hpop, hhist, hblocks, hd, n, -, hctl⟩ | ⟨hc, hcnt, w, revents, hpop, hw, rfl⟩
  · have hstay : (t.ctl ≠ .user → t.depth ≠ 0) ∧ (if t.ctl = .user then t.depth else t.depth - 1) =
        if s.ctl = .user then s.depth else s.depth - 1 := by
      rcases hctl with ⟨hc, hc', hdepth, -⟩ | ⟨hc, -, -, ⟨hc', hdepth⟩ | ⟨-, hc', hdepth⟩⟩
      · simpa [hc, hc', hdepth] using hdeep
      · simpa [hc, hc', hdepth] using hdeep
      · simp [hc, hc', hdepth]
    exact ⟨hd, hstay.1, .inl ⟨hpop, hstay.2, hhist, hblocks⟩⟩
  · obtain ⟨-, hctl, hdepth, hd⟩ := Once.raised_invoke (e := e)
      ({ s with
        loop := { s.loop with pend := s.loop.pend.pop s.loop.pend.pendingpri }
        ctl := .user } : Once.Onces U T F A) w revents
    have hdeep := hdeep (by rw [hc]; simp)
    have hmore : (if Pend.Ctl.user = .user then s.depth else s.depth - 1) =
        (if s.ctl = .user then s.depth else s.depth - 1) + 1 := by
      rw [hc, if_pos rfl, if_neg (by simp)]
      omega
    refine ⟨hd, fun hn => absurd hctl hn, .inr ⟨⟨w, hpop⟩, ?_, ?_⟩⟩
    · rw [hctl, hdepth]
      exact hmore
    · by_cases hhalf : half w = none
      · rw [Once.invoke_other _ hhalf]
        exact .inl ⟨rfl, rfl⟩
      · obtain ⟨u, hu⟩ := Option.ne_none_iff_exists'.mp hhalf
        have hpend := Once.popped_pending h hcnt hw fun hn => by rw [hn] at hu; cases hu
        obtain ⟨b, hb⟩ := Option.ne_none_iff_exists'.mp
          ((h.live u).mpr (Once.reached_iff.mpr ⟨w, hu, .inr (.inl hpend)⟩))
        obtain ⟨revents', hhist, hblocks⟩ := Once.invoke_half (e := e)
          (s := { s with
            loop := { s.loop with pend := s.loop.pend.pop s.loop.pend.pendingpri }
            ctl := .user }) hu hb revents
        exact .inr ⟨u, b, revents', hb, hblocks, hhist⟩

end

/-! ### Who frees a block -/

/-- A block of `ev_once` is to call `ev_x_once_cb` with it. -/
def Waiting (blocks : U → Option (Once.Block U (Cb G) X)) (u : U) (once : X) : Prop :=
  ∃ b, blocks u = some b ∧ b.cb = .evXOnceCb ∧ b.arg = once

section

variable {blocks : U → Option (Once.Block U (Cb G) X)} {u v : U} {once : X}

section

omit [DecidableEq X]

theorem waiting_free : Waiting (Function.update blocks u none) v once ↔ v ≠ u ∧ Waiting blocks v once := by
  unfold Waiting
  by_cases hv : v = u
  · simp [hv]
  · simp [hv]

theorem waiting_alloc (hu : blocks u = none) (b : Once.Block U (Cb G) X) :
    Waiting (Function.update blocks u (some b)) v once ↔
      (v = u ∧ b.cb = .evXOnceCb ∧ b.arg = once) ∨ Waiting blocks v once := by
  unfold Waiting
  by_cases hv : v = u
  · simp [hv, hu]
  · simp [hv]

end

end

variable {s t : Base U T X G C P}

/-- Each allocated block is freed by what one block of `ev_once` calls, or when one of the callbacks that run
returns. -/
structure Held (s : Base U T X G C P) : Prop where
  deep : s.onces.ctl ≠ .user → s.onces.depth ≠ 0
  root : ∀ d, s.onces.destroying = some d → d = 0
  stack : s.running.length = frames s.onces
  live : ∀ once, s.xs once ≠ none ↔ (∃ u, Waiting s.onces.blocks u once) ∨ some once ∈ s.running
  apart : ∀ u once, Waiting s.onces.blocks u once → some once ∉ s.running
  unique : ∀ u v once, Waiting s.onces.blocks u once → Waiting s.onces.blocks v once → u = v
  nodup : ∀ once, s.running.count (some once) ≤ 1
  set : ∀ once b, s.xs once = some b → b.cb ≠ none
  told : ∀ once, Lives once s.hist (s.xs once).isSome

section

omit [DecidableEq U] [LinearOrder T] [Add T] [Sub T] [Zero T] [One T]

/-- Nothing happens to the blocks. -/
theorem Held.onces (h : Held s) {o : Once.Onces U T (Cb G) X} (hw : ∀ u once, Waiting o.blocks u once ↔
    Waiting s.onces.blocks u once) (hdeep : o.ctl ≠ .user → o.depth ≠ 0) (hroot : ∀ d, o.destroying = some d → d = 0)
    (hf : frames o = frames s.onces) : Held { s with onces := o } := by
  have hw : Waiting o.blocks = Waiting s.onces.blocks := funext₂ fun u once => propext (hw u once)
  exact ⟨hdeep, hroot, h.stack.trans hf.symm, fun once => by rw [hw]; exact h.live once,
    fun u once => by rw [hw]; exact h.apart u once, fun u v once => by rw [hw]; exact h.unique u v once,
    h.nodup, h.set, h.told⟩

/-- A callback starts, and is to free nothing. -/
theorem Held.push (h : Held s) {o : Once.Onces U T (Cb G) X} (hw : ∀ u once, Waiting o.blocks u once ↔
    Waiting s.onces.blocks u once) (hdeep : o.ctl ≠ .user → o.depth ≠ 0) (hroot : ∀ d, o.destroying = some d → d = 0)
    (hf : frames o = frames s.onces + 1) : Held { s with onces := o, running := none :: s.running } := by
  have hw : Waiting o.blocks = Waiting s.onces.blocks := funext₂ fun u once => propext (hw u once)
  have hmem : ∀ once, some once ∈ none :: s.running ↔ some once ∈ s.running := fun once => by simp
  refine ⟨hdeep, hroot, (congrArg Nat.succ h.stack).trans hf.symm, fun once => ?_, fun u once => ?_,
    fun u v once => ?_, fun once => ?_, h.set, h.told⟩
  · rw [hw, hmem]
    exact h.live once
  · rw [hw, hmem]
    exact h.apart u once
  · rw [hw]
    exact h.unique u v once
  · rw [List.count_cons_of_ne (by simp)]
    exact h.nodup once

end

section

omit [LinearOrder T] [Add T] [Sub T] [Zero T] [One T]

/-- `ev_once` frees its block and calls `ev_x_once_cb`. -/
theorem Held.call (h : Held s) {o : Once.Onces U T (Cb G) X} {u : U} {once : X} (revents : Events)
    (hu : Waiting s.onces.blocks u once) (hw : o.blocks = Function.update s.onces.blocks u none)
    (hdeep : o.ctl ≠ .user → o.depth ≠ 0) (hroot : ∀ d, o.destroying = some d → d = 0)
    (hf : frames o = frames s.onces + 1) : Held ({ s with onces := o }.evXOnceCb once revents) := by
  have hlive := (h.live once).mpr (.inl ⟨u, hu⟩)
  have hnot := h.apart u once hu
  obtain ⟨⟨fd, cb, arg⟩, hx⟩ := Option.ne_none_iff_exists'.mp hlive
  obtain ⟨cb, rfl⟩ := Option.ne_none_iff_exists'.mp (h.set once _ hx)
  have hcb : { s with onces := o }.evXOnceCb once revents =
      { s with
        onces := o
        running := some once :: s.running
        hist := .called once cb fd (revents.setWidth 16) arg :: s.hist } := by
    unfold Base.evXOnceCb
    dsimp only
    rw [hx]
  have hw : ∀ v y, Waiting o.blocks v y ↔ v ≠ u ∧ Waiting s.onces.blocks v y := fun v y => by
    rw [hw]
    exact waiting_free
  have hmem : ∀ y, some y ∈ some once :: s.running ↔ y = once ∨ some y ∈ s.running := fun y => by simp
  rw [hcb]
  refine ⟨hdeep, hroot, (congrArg Nat.succ h.stack).trans hf.symm, fun y => ?_, fun v y hv => ?_,
    fun v v' y hv hv' => ?_, fun y => ?_, h.set, fun y => ?_⟩
  · rw [hmem]
    by_cases hy : y = once
    · rw [hy]
      exact iff_of_true hlive (.inr (.inl rfl))
    · rw [or_iff_right hy]
      refine (h.live y).trans (or_congr_left ⟨fun ⟨v, hv⟩ => ⟨v, (hw v y).mpr ⟨?_, hv⟩⟩, fun ⟨v, hv⟩ =>
        ⟨v, ((hw v y).mp hv).2⟩⟩)
      rintro rfl
      obtain ⟨b, hb, -, hbarg⟩ := hu
      obtain ⟨b', hb', -, hbarg'⟩ := hv
      rw [hb] at hb'
      cases hb'
      exact hy (hbarg'.symm.trans hbarg)
  · obtain ⟨hne, hwait⟩ := (hw v y).mp hv
    rw [hmem]
    rintro (hy | hr)
    · exact hne (h.unique v u once (hy ▸ hwait) hu)
    · exact h.apart v y hwait hr
  · exact h.unique v v' y ((hw v y).mp hv).2 ((hw v' y).mp hv').2
  · by_cases hy : y = once
    · rw [hy, List.count_cons_self, List.count_eq_zero.mpr hnot]
    · rw [List.count_cons_of_ne (by simpa using Ne.symm hy)]
      exact h.nodup y
  · have htold := h.told y
    by_cases hy : y = once
    · rw [hy] at htold ⊢
      rw [hx] at htold ⊢
      exact .called htold
    · exact .other (Ne.symm hy) htold

end

section

omit [DecidableEq U] [LinearOrder T] [Add T] [Sub T] [Zero T] [One T]

/-- A callback returns that is to free nothing. -/
theorem Held.pop (h : Held s) {o : Once.Onces U T (Cb G) X} {running : List (Option X)}
    (hr : s.running = none :: running) (hblocks : o.blocks = s.onces.blocks) (hdeep : o.ctl ≠ .user → o.depth ≠ 0)
    (hroot : ∀ d, o.destroying = some d → d = 0) (hf : running.length = frames o) :
    Held { s with onces := o, running := running } := by
  have hmem : ∀ y, some y ∈ s.running ↔ some y ∈ running := fun y => by simp [hr]
  refine ⟨hdeep, hroot, hf, fun y => ?_, fun u y => ?_, fun u v y => ?_, fun y => ?_, h.set, h.told⟩
  · rw [hblocks, ← hmem]
    exact h.live y
  · rw [hblocks, ← hmem]
    exact h.apart u y
  · rw [hblocks]
    exact h.unique u v y
  · have hcount := h.nodup y
    rwa [hr, List.count_cons_of_ne (by simp)] at hcount

/-- `ev_x_once_cb` returns, and frees its block. -/
theorem Held.popFree (h : Held s) {o : Once.Onces U T (Cb G) X} {running : List (Option X)} {once : X}
    (hr : s.running = some once :: running) (hblocks : o.blocks = s.onces.blocks)
    (hdeep : o.ctl ≠ .user → o.depth ≠ 0) (hroot : ∀ d, o.destroying = some d → d = 0)
    (hf : running.length = frames o) :
    Held { s with
      onces := o
      xs := Function.update s.xs once none
      running := running
      hist := .freed once :: s.hist } := by
  have hmem : ∀ y, some y ∈ s.running ↔ y = once ∨ some y ∈ running := fun y => by simp [hr]
  have hnot : some once ∉ running := by
    have hcount := h.nodup once
    rw [hr, List.count_cons_self] at hcount
    exact List.count_eq_zero.mp (by omega)
  have hself : (s.xs once).isSome = true := by
    rw [Option.isSome_iff_ne_none, h.live, hmem]
    exact .inr (.inl rfl)
  have hother : ∀ y, y ≠ once → Function.update s.xs once none y = s.xs y := fun y hy => Function.update_of_ne hy ..
  have hfreed : Function.update s.xs once none once = none := Function.update_self ..
  refine ⟨hdeep, hroot, hf, fun y => ?_, fun u y hw hm => ?_, fun u v y => ?_, fun y => ?_, fun y b hb => ?_,
    fun y => ?_⟩
  · rw [hblocks]
    dsimp only
    by_cases hy : y = once
    · rw [hy, hfreed]
      refine iff_of_false (fun hc => hc rfl) ?_
      rintro (⟨u, hu⟩ | hm)
      · exact h.apart u once hu ((hmem once).mpr (.inl rfl))
      · exact hnot hm
    · rw [hother y hy, h.live, hmem, or_iff_right hy]
  · rw [hblocks] at hw
    exact h.apart u y hw ((hmem y).mpr (.inr hm))
  · rw [hblocks]
    exact h.unique u v y
  · have hcount := h.nodup y
    rw [hr] at hcount
    exact List.count_le_count_cons.trans hcount
  · by_cases hy : y = once
    · rw [hy] at hb
      exact absurd (hfreed.symm.trans hb) (by simp)
    · exact h.set y b ((hother y hy).symm.trans hb)
  · have htold := h.told y
    dsimp only
    by_cases hy : y = once
    · rw [hy, hself] at htold
      rw [hy, hfreed]
      exact .freed htold
    · rw [hother y hy]
      exact .other (Ne.symm hy) htold

theorem Held.ret (h : Held s) (hc : s.onces.ctl = .user) (hd : s.onces.depth ≠ 0) :
    Held ({ s with onces := { s.onces with ctl := .test } } : Base U T X G C P).returned := by
  have hlen : s.running.length = s.onces.depth := h.stack.trans (if_pos hc)
  have hf : frames ({ s.onces with ctl := .test } : Once.Onces U T (Cb G) X) = s.onces.depth - 1 := if_neg (by simp)
  unfold Base.returned
  dsimp only
  cases hr : s.running with
  | nil =>
    rw [hr] at hlen
    exact absurd hlen.symm hd
  | cons x running =>
    replace hf : running.length = frames ({ s.onces with ctl := .test } : Once.Onces U T (Cb G) X) := by
      rw [hf, ← hlen, hr]
      rfl
    cases x with
    | none =>
      have hpop := h.pop (o := { s.onces with ctl := .test }) hr rfl (fun _ => hd) h.root hf
      exact hpop
    | some once =>
      have hpop := h.popFree (o := { s.onces with ctl := .test }) hr rfl (fun _ => hd) h.root hf
      exact hpop

end

section

omit [LinearOrder T] [Add T] [Sub T] [Zero T] [One T]

/-- `event_base_once` gives the block to a new one of `ev_once`. -/
theorem Held.alloc (h : Held s) {o : Once.Onces U T (Cb G) X} {u : U} {once : X} {b : EvXOnce C P}
    (hu : s.onces.blocks u = none) (hx : s.xs once = none) (hb : b.cb ≠ none)
    (ho : o.blocks = Function.update s.onces.blocks u (some ⟨.evXOnceCb, once, none⟩))
    (hdeep : o.ctl ≠ .user → o.depth ≠ 0) (hroot : ∀ d, o.destroying = some d → d = 0)
    (hf : frames o = frames s.onces) :
    Held { s with onces := o, xs := Function.update s.xs once (some b), hist := .allocated once :: s.hist } := by
  have hw : ∀ v y, Waiting o.blocks v y ↔ (v = u ∧ once = y) ∨ Waiting s.onces.blocks v y := fun v y => by
    rw [ho, waiting_alloc hu]
    simp
  have hno : ∀ y, ¬ Waiting s.onces.blocks u y := fun y ⟨b, hb, _⟩ => by
    rw [hu] at hb
    cases hb
  have hself : Function.update s.xs once (some b) once = some b := Function.update_self ..
  have hother : ∀ y, y ≠ once → Function.update s.xs once (some b) y = s.xs y := fun y hy =>
    Function.update_of_ne hy ..
  have hold : ¬ ((∃ v, Waiting s.onces.blocks v once) ∨ some once ∈ s.running) := fun hc => (h.live once).mpr hc hx
  refine ⟨hdeep, hroot, h.stack.trans hf.symm, fun y => ?_, fun v y hv => ?_, fun v v' y hv hv' => ?_, h.nodup,
    fun y b' hb' => ?_, fun y => ?_⟩
  · by_cases hy : y = once
    · rw [hy]
      exact iff_of_true (by simp) (.inl ⟨u, (hw u once).mpr (.inl ⟨rfl, rfl⟩)⟩)
    · refine (iff_of_eq (congrArg (· ≠ none) (hother y hy))).trans ((h.live y).trans (or_congr_left ?_))
      refine exists_congr fun v => ((hw v y).trans (or_iff_right fun hc => hy hc.2.symm)).symm
  · rcases (hw v y).mp hv with ⟨-, rfl⟩ | hv
    · exact fun hm => hold (.inr hm)
    · exact h.apart v y hv
  · rcases (hw v y).mp hv with ⟨rfl, rfl⟩ | hv
    · rcases (hw v' _).mp hv' with ⟨rfl, -⟩ | hv'
      · rfl
      · exact absurd (.inl ⟨v', hv'⟩) hold
    · rcases (hw v' _).mp hv' with ⟨rfl, rfl⟩ | hv'
      · exact absurd (.inl ⟨v, hv⟩) hold
      · exact h.unique v v' y hv hv'
  · by_cases hy : y = once
    · rw [hy] at hb'
      obtain rfl := Option.some.inj (hself.symm.trans hb')
      exact hb
    · exact h.set y b' ((hother y hy).symm.trans hb')
  · have htold := h.told y
    dsimp only
    by_cases hy : y = once
    · rw [hy, hx] at htold
      rw [hy, hself]
      exact .allocated htold
    · rw [hother y hy]
      exact .other (Ne.symm hy) htold

end

/-! ### Runs -/

section

variable {e : Compat.Setup U T} {a : Act U T X G C P}

/-- The loop and the blocks are in order. -/
structure Fit (e : Compat.Setup U T) (s : Base U T X G C P) : Prop where
  inv : Once.Inv e.toEnv s.onces
  held : Held s

section

omit [One T]

theorem Held.tick (h : Held s) (hinv : Once.Inv e.toEnv s.onces) {o : Once.Onces U T (Cb G) X}
    (ho : s.onces.tick e.toEnv = some o) : Held (s.ticked o) := by
  obtain ⟨hd, hdeep, hcase⟩ := tick_blocks hinv h.deep ho
  have hroot : ∀ d, o.destroying = some d → d = 0 := by
    rw [hd]
    exact h.root
  unfold Base.ticked
  rcases hcase with ⟨hpop, hf, -, hblocks⟩ | ⟨⟨w, hpop⟩, hf, ⟨hhist, hblocks⟩ | ⟨u, b, revents, hb, hblocks, hhist⟩⟩
  · rw [hpop]
    exact h.onces (fun u once => by rw [hblocks]) hdeep hroot hf
  · rw [hpop, hhist, Nat.sub_self]
    exact h.push (fun u once => by rw [hblocks]) hdeep hroot hf
  · have htake : o.hist.take (o.hist.length - s.onces.hist.length) = [.called u b.cb b.arg revents, .freed u] := by
      have hlen : o.hist.length - s.onces.hist.length = 2 := by
        rw [hhist]
        simp only [List.length_cons]
        omega
      rw [hlen, hhist]
      rfl
    rw [hpop, htake]
    obtain ⟨cb, once, reclaim⟩ := b
    cases cb with
    | evXOnceCb => exact h.call revents ⟨_, hb, rfl, rfl⟩ hblocks hdeep hroot hf
    | other g =>
      refine h.push (fun v y => ?_) hdeep hroot hf
      rw [hblocks, waiting_free]
      refine and_iff_right_of_imp fun hv hvu => ?_
      obtain ⟨b, hb', hcb, -⟩ := hv
      rw [hvu, hb] at hb'
      cases hb'
      cases hcb

end

section

omit [Sub T] [One T] [DecidableEq X]

/-- `ev_once` takes the block that `ev_malloc` answers with, if it has something to wait for. -/
theorem blocks_evOnce (o : Once.Onces U T (Cb G) X) (u : U) (fd : ℤ) (events : Events) (timeout : T)
    (cb : Option (Cb G)) (once : X) :
    (o.evOnce e.toEnv u fd events timeout cb once).blocks = o.blocks ∨
      ∃ f, cb = some f ∧ (o.evOnce e.toEnv u fd events timeout cb once).blocks =
        Function.update o.blocks u (some ⟨f, once, none⟩) := by
  unfold Once.Onces.evOnce
  dsimp only
  cases cb with
  | none => exact .inl rfl
  | some f =>
    dsimp only
    split
    · exact .inl rfl
    · exact .inr ⟨f, rfl, rfl⟩

/-- What `event_base_once` checks is what `ev_once` checks. -/
theorem blocks_eventBaseOnce (o : Once.Onces U T (Cb G) X) (u : U) {fd : ℤ} {events : Events} {timeout : T}
    (once : X) (h : ¬ ((fd < 0 ∨ events &&& (evRead ||| evWrite) = 0) ∧ timeout < 0)) :
    (o.evOnce e.toEnv u fd (events &&& (evRead ||| evWrite)) timeout (some .evXOnceCb) once).blocks =
      Function.update o.blocks u (some ⟨.evXOnceCb, once, none⟩) := by
  unfold Once.Onces.evOnce
  dsimp only
  rw [BitVec.and_assoc, BitVec.and_self, if_neg h]

end

section

omit [One T]

/-- What user code and the passes do to the blocks of `ev_once` is nothing to those of `event_base_once`. -/
theorem Held.user [AddRightMono T] (h : Held s) (hinv : Once.Inv e.toEnv s.onces) {b : Once.Act U T (Cb G) X}
    (hb : Foreign b) (htick : b ≠ .tick) (hret : b ≠ .ret) {o : Once.Onces U T (Cb G) X}
    (ho : Once.step e.toEnv s.onces b = some o) : Held { s with onces := o } := by
  have hno : ∀ cleanups, b ≠ .evLoopDestroy cleanups := by
    rintro cleanups rfl
    exact hb
  obtain ⟨-, hu, hall, rfl⟩ := Once.step_user htick ho
  by_cases hi : b = .invokePending
  · rw [hi]
    refine h.onces (fun _ _ => Iff.rfl) (fun _ => Nat.succ_ne_zero _) h.root ?_
    unfold frames
    rw [if_pos hu.1]
    exact if_neg (by simp [Once.call, Once.Onces.invokePending])
  · obtain ⟨hctl, hdepth, hdes⟩ := Once.control_call (e := e.toEnv) (s := s.onces) hi hret hno
    have hf : frames (Once.call e.toEnv s.onces b) = frames s.onces := by
      unfold frames
      rw [hctl, hdepth]
    refine h.onces (fun v y => ?_) (hctl ▸ hdepth ▸ h.deep) (hdes ▸ h.root) hf
    rcases hinv.loopAct hall htick with hq | ⟨u, fd, events, timeout, cb, arg, rfl⟩ | rfl
    · rw [hq.blocks]
    · rcases blocks_evOnce (e := e) s.onces u fd events timeout cb arg with hblocks | ⟨f, rfl, hblocks⟩
      · exact iff_of_eq (congrArg (Waiting · v y) hblocks)
      · refine (iff_of_eq (congrArg (Waiting · v y) hblocks)).trans ((waiting_alloc hall _).trans (or_iff_right ?_))
        rintro ⟨-, hcb, -⟩
        rw [show f = .evXOnceCb from hcb] at hb
        exact hb
    · exact absurd rfl (hno [])

end

/-- What a step is. -/
theorem step_cases (hs : step e s a = some t) :
    (∃ u once fd events cb arg tv, a = .eventBaseOnce u once fd events cb arg tv ∧ s.onces.destroyed = false ∧
      s.onces.InUser ∧ s.onces.blocks u = none ∧ (∀ y, once = some y → s.xs y = none) ∧
      t = (s.eventBaseOnce e u once fd events cb arg tv).2) ∨
    (∃ cleanups o, a = .eventBaseFree cleanups ∧ s.onces.depth = 0 ∧
      Once.step e.toEnv s.onces (.evLoopDestroy cleanups) = some o ∧ t = { s with onces := o }) ∨
    (∃ o, a = .loop .tick ∧ Once.step e.toEnv s.onces .tick = some o ∧ t = s.ticked o) ∨
    (∃ o, a = .loop .ret ∧ Once.step e.toEnv s.onces .ret = some o ∧ t = ({ s with onces := o }).returned) ∨
    (∃ b o, a = .loop b ∧ Foreign b ∧ b ≠ .tick ∧ b ≠ .ret ∧ Once.step e.toEnv s.onces b = some o ∧
      t = { s with onces := o }) := by
  unfold step at hs
  split at hs
  · rename_i u once fd events cb arg tv
    rw [Option.ite_none_right_eq_some, Option.some.injEq] at hs
    obtain ⟨⟨⟨hd, hu⟩, hb, hx⟩, rfl⟩ := hs
    refine .inl ⟨u, once, fd, events, cb, arg, tv, rfl, hd, hu, hb, fun y hy => ?_, rfl⟩
    rw [hy] at hx
    exact Option.isNone_iff_eq_none.mp hx
  · rw [Option.ite_none_right_eq_some, Option.map_eq_some_iff] at hs
    obtain ⟨hd, o, ho, rfl⟩ := hs
    exact .inr (.inl ⟨_, o, rfl, hd, ho, rfl⟩)
  · obtain ⟨o, ho, rfl⟩ := Option.map_eq_some_iff.mp hs
    exact .inr (.inr (.inl ⟨o, rfl, ho, rfl⟩))
  · obtain ⟨o, ho, rfl⟩ := Option.map_eq_some_iff.mp hs
    exact .inr (.inr (.inr (.inl ⟨o, rfl, ho, rfl⟩)))
  · rename_i b htick hret
    rw [Option.ite_none_right_eq_some, Option.map_eq_some_iff] at hs
    obtain ⟨hb, o, ho, rfl⟩ := hs
    exact .inr (.inr (.inr (.inr ⟨b, o, rfl, hb, fun hc => htick hc, fun hc => hret hc, ho, rfl⟩)))

/-- `event_base_once` changes nothing, or hands its new block to `ev_once`. -/
theorem eventBaseOnce_cases (s : Base U T X G C P) (u : U) (once : Option X) (fd : ℤ) (events : Events)
    (cb : Option C) (arg : P) (tv : Option T) :
    (s.eventBaseOnce e u once fd events cb arg tv).2 = s ∨
      ∃ f y timeout, once = some y ∧ ¬ ((fd < 0 ∨ events &&& (evRead ||| evWrite) = 0) ∧ timeout < 0) ∧
        (s.eventBaseOnce e u once fd events cb arg tv).2 = { s with
          onces := s.onces.evOnce e.toEnv u fd (events &&& (evRead ||| evWrite)) timeout (some .evXOnceCb) y
          xs := Function.update s.xs y (some ⟨fd, some f, arg⟩)
          hist := .allocated y :: s.hist } := by
  unfold Base.eventBaseOnce
  dsimp only
  generalize (match tv with
    | some tv => Compat.evTvGet e tv
    | none => if events &&& evTimer ≠ 0 ∧ events &&& (evRead ||| evWrite) = 0 then 0 else 0 - 1 : T) = timeout
  cases cb with
  | none => exact .inl rfl
  | some f =>
    dsimp only
    split
    · exact .inl rfl
    · rename_i hwait
      cases once with
      | none => exact .inl rfl
      | some y => exact .inr ⟨f, y, timeout, rfl, hwait, rfl⟩

theorem Fit.eventBaseOnce (h : Fit e s) {u : U} {once : Option X} (hu : s.onces.blocks u = none)
    (hx : ∀ y, once = some y → s.xs y = none) (fd : ℤ) (events : Events) (cb : Option C) (arg : P) (tv : Option T) :
    Fit e (s.eventBaseOnce e u once fd events cb arg tv).2 := by
  rcases eventBaseOnce_cases (e := e) s u once fd events cb arg tv with heq | ⟨f, y, timeout, hy, hwait, heq⟩
  · rw [heq]
    exact h
  · rw [heq]
    obtain ⟨hctl, hdepth, hdes⟩ := Once.control_call (e := e.toEnv) (s := s.onces)
      (a := .evOnce u fd (events &&& (evRead ||| evWrite)) timeout (some .evXOnceCb) y) (by simp) (by simp) (by simp)
    have hf : frames (s.onces.evOnce e.toEnv u fd (events &&& (evRead ||| evWrite)) timeout (some .evXOnceCb) y) =
        frames s.onces := by
      unfold frames
      rw [← hctl, ← hdepth]
      rfl
    have hinv := h.inv.once hu fd (events &&& (evRead ||| evWrite)) timeout (some .evXOnceCb) y
    exact ⟨hinv, h.held.alloc hu (hx y hy) (by simp) (blocks_eventBaseOnce s.onces u y hwait)
      (hctl ▸ hdepth ▸ h.held.deep) (hdes ▸ h.held.root) hf⟩

section

omit [DecidableEq U] [LinearOrder T] [Add T] [Sub T] [Zero T] [One T]

theorem onces_ticked (s : Base U T X G C P) (o : Once.Onces U T (Cb G) X) : (s.ticked o).onces = o := by
  unfold Base.ticked
  split
  · rfl
  · split
    · unfold Base.evXOnceCb
      split
      · rfl
      · rfl
    · rfl

theorem onces_returned (s : Base U T X G C P) : s.returned.onces = s.onces := by
  unfold Base.returned
  split
  · rfl
  · rfl
  · rfl

end

/-- The base is freed: nothing happened to the blocks of `event_base_once`, and no callback runs. -/
structure Freed (s t : Base U T X G C P) : Prop where
  xs : t.xs = s.xs
  hist : t.hist = s.hist
  idle : s.running = []

theorem Fit.step [AddRightMono T] (h : Fit e s) (hs : step e s a = some t) :
    Fit e t ∧ t.onces.destroyed = false ∨ Freed s t ∧ t.onces.destroyed = true := by
  have hfit : ∀ {t : Base U T X G C P}, Once.Inv e.toEnv t.onces → Held t →
      Fit e t ∧ t.onces.destroyed = false ∨ Freed s t ∧ t.onces.destroyed = true := fun hinv hheld =>
    .inl ⟨⟨hinv, hheld⟩, hinv.alive⟩
  have hidle : s.onces.ctl = .user → s.onces.depth = 0 → s.running = [] := fun hc hd =>
    List.eq_nil_of_length_eq_zero (h.held.stack.trans ((if_pos hc).trans hd))
  rcases step_cases hs with ⟨u, once, fd, events, cb, arg, tv, -, -, -, hu, hx, rfl⟩ |
    ⟨cleanups, o, -, hd, ho, rfl⟩ | ⟨o, -, ho, rfl⟩ | ⟨o, -, ho, rfl⟩ | ⟨b, o, -, hb, htick, hret, ho, rfl⟩
  · have hfit' := h.eventBaseOnce hu hx fd events cb arg tv
    exact hfit hfit'.inv hfit'.held
  · obtain ⟨-, huser, hall, rfl⟩ := Once.step_user (by simp) ho
    cases cleanups with
    | nil => exact .inr ⟨⟨rfl, rfl, hidle huser.1 hd⟩, rfl⟩
    | cons c cs =>
      have hq : Once.Quiet e.toEnv s.onces _ := (h.inv.loopAct hall (by simp)).resolve_right (by simp)
      refine hfit (h.inv.quiet hq) (h.held.onces (fun u once => ?_) (fun _ => Nat.succ_ne_zero _) ?_ ?_)
      · rw [hq.blocks]
      · rintro d hd'
        exact (Option.some.inj hd').symm.trans hd
      · unfold frames
        rw [if_pos huser.1]
        exact if_neg (by simp [Once.call, Once.Onces.evLoopDestroy, Once.Onces.invokePending])
  · obtain ⟨-, ⟨hc, rfl⟩ | ⟨hc, htick⟩⟩ := Once.step_tick ho
    · have hpop : s.onces.popped = none := if_neg fun hn => by
        rw [hc.1] at hn
        exact absurd hn.1 (by simp)
      unfold Base.ticked
      rw [hpop]
      exact .inr ⟨⟨rfl, rfl, hidle hc.1 (h.held.root _ hc.2)⟩, rfl⟩
    · refine hfit ?_ (h.held.tick h.inv htick)
      rw [onces_ticked]
      exact (h.inv.tick htick).1
  · obtain ⟨-, huser, hall, rfl⟩ := Once.step_user (by simp) ho
    refine hfit ?_ (h.held.ret huser.1 hall)
    rw [onces_returned]
    exact Once.inv_call h.inv hall (by simp) (by simp)
  · have hno : ∀ cleanups, b ≠ .evLoopDestroy cleanups := by
      rintro cleanups rfl
      exact hb
    obtain ⟨-, -, hall, rfl⟩ := Once.step_user htick ho
    exact hfit (Once.inv_call h.inv hall htick hno) (h.held.user h.inv hb htick hret ho)

theorem step_destroyed (hd : s.onces.destroyed = true) : step e s a ≠ some t := by
  intro hs
  have hno : ∀ b o, Once.step e.toEnv s.onces b ≠ some o := fun b o h => by
    unfold Once.step at h
    rw [if_pos hd] at h
    cases h
  rcases step_cases hs with ⟨_, _, _, _, _, _, _, -, hf, -⟩ | ⟨_, o, -, -, ho, -⟩ | ⟨o, -, ho, -⟩ | ⟨o, -, ho, -⟩ |
    ⟨_, o, -, -, -, -, ho, -⟩
  · rw [hd] at hf
    cases hf
  · exact hno _ _ ho
  · exact hno _ _ ho
  · exact hno _ _ ho
  · exact hno _ _ ho

section

omit [One T]

theorem fit_init [Inhabited U] (e : Compat.Setup U T) (backend : Backend) (noinotify signalfd notimerfd : Bool) :
    Fit e (init (X := X) (G := G) (C := C) (P := P) (Loop.init backend noinotify signalfd notimerfd ())) := by
  have hno : ∀ u once, ¬ Waiting (fun _ : U => (none : Option (Once.Block U (Cb G) X))) u once := by
    rintro u once ⟨b, hb, -⟩
    cases hb
  refine ⟨Once.inv_init e.toEnv backend noinotify signalfd notimerfd, ⟨fun h => absurd rfl h, fun d hd => ?_, rfl,
    fun once => ?_, fun u once hw => absurd hw (hno u once), fun u v once hw => absurd hw (hno u once),
    fun once => Nat.zero_le _, fun once b hb => ?_, fun once => .nil⟩⟩
  · cases hd
  · refine iff_of_false (fun hc => hc rfl) ?_
    rintro (⟨u, hu⟩ | hm)
    · exact hno u once hu
    · exact List.not_mem_nil hm
  · cases hb

end

/-- Once the base is freed, each `struct ev_x_once` has been freed once for each time it was allocated, exactly if no
block of an `event_base_once` was left for `once_reclaim`, with which the last step ends. Without cleanup watchers
that step is the call of `event_base_free`. -/
theorem base_once_freed [Inhabited U] [AddRightMono T] (e : Compat.Setup U T) (backend : Backend)
    (noinotify signalfd notimerfd : Bool) {acts : List (Act U T X G C P)} {s t : Base U T X G C P}
    {a : Act U T X G C P} (hrun : Runs e (init (Loop.init backend noinotify signalfd notimerfd ())) acts s)
    (hs : step e s a = some t) (hend : t.onces.destroyed = true) :
    (∀ once, Lives once t.hist false) ↔ ∀ u b, s.onces.blocks u = some b → b.cb ≠ .evXOnceCb := by
  have hfit : Fit e s := by
    refine (Run.invariant (I := fun s => s.onces.destroyed = false → Fit e s) (fun s a t h hst ht => ?_) hrun
      fun _ => fit_init e backend noinotify signalfd notimerfd) ?_
    · rcases (h (Bool.eq_false_iff.mpr fun hd => step_destroyed hd hst)).step hst with ⟨h, -⟩ | ⟨-, hd⟩
      · exact h
      · rw [ht] at hd
        cases hd
    · exact Bool.eq_false_iff.mpr fun hd => step_destroyed hd hs
  obtain ⟨-, hd⟩ | ⟨hfreed, -⟩ := hfit.step hs
  · rw [hend] at hd
    cases hd
  · rw [hfreed.hist]
    constructor
    · intro hall u b hb hcb
      have hx := (hfit.held.live b.arg).mpr (.inl ⟨u, b, hb, hcb, rfl⟩)
      have hone := (hall b.arg).unique (hfit.held.told b.arg)
      rw [Option.isSome_iff_ne_none.mpr hx] at hone
      cases hone
    · intro hno once
      have hx : s.xs once = none := by
        by_contra hx
        rcases (hfit.held.live once).mp hx with ⟨u, b, hb, hcb, -⟩ | hm
        · exact hno u b hb hcb
        · rw [hfreed.idle] at hm
          cases hm
      have htold := hfit.held.told once
      rwa [hx] at htold

end

/-- `event_base_once` with a timeout of one second, which is over: `ev_x_once_cb` is called and returns. -/
def firedRun : List (Act Bool ℤ Bool Unit Unit Unit) :=
  [.eventBaseOnce false (some true) (-1) evTimer (some ()) () (some 1), .loop (.timeUpdate 5), .loop .timersReify,
    .loop .invokePending] ++ List.replicate 6 (.loop .tick) ++ [.loop .ret] ++ List.replicate 5 (.loop .tick)

def setup : Compat.Setup Bool ℤ := ⟨⟨.four, fun _ _ _ => 0, fun _ _ _ => 0⟩, 1, 3⟩

theorem base_once_freed_fired : ∃ s : Base Bool ℤ Bool Unit Unit Unit,
    s.hist = [.freed true, .called true () (-1) 0x100 (), .allocated true] ∧ ∀ once, Lives once s.hist false := by
  have hx : ((execFrom (step setup) (init (Loop.init .select true false true ())) firedRun).bind fun s =>
      (step setup s (.eventBaseFree [])).map fun t =>
        ((s.onces.blocks false).isNone, (s.onces.blocks true).isNone, t.hist, t.onces.destroyed)) =
      some (true, true, [.freed true, .called true () (-1) 0x100 (), .allocated true], true) := by
    decide +kernel
  obtain ⟨s, hs, hx⟩ := Option.bind_eq_some_iff.mp hx
  obtain ⟨t, ht, hx⟩ := Option.map_eq_some_iff.mp hx
  simp only [Prod.mk.injEq] at hx
  obtain ⟨hfalse, htrue, hhist, hend⟩ := hx
  refine ⟨t, hhist, (base_once_freed setup .select true false true (Run.iff_execFrom.mpr hs) ht hend).mpr
    fun u b hb => ?_⟩
  cases u with
  | false =>
    rw [hb] at hfalse
    cases hfalse
  | true =>
    rw [hb] at htrue
    cases htrue

/-- The base is freed before the timeout, and the block is left. -/
theorem base_once_freed_fails :
    ¬ ∀ (acts : List (Act Bool ℤ Bool Unit Unit Unit)) (s t : Base Bool ℤ Bool Unit Unit Unit)
      (a : Act Bool ℤ Bool Unit Unit Unit), Runs setup (init (Loop.init .select true false true ())) acts s →
        step setup s a = some t → t.onces.destroyed = true → ∀ once, Lives once t.hist false := by
  intro h
  have hx : ((execFrom (step setup) (init (G := Unit) (Loop.init .select true false true ()))
      [.eventBaseOnce false (some true) (-1) evTimer (some ()) () (some 1)]).bind fun s =>
      (step setup s (.eventBaseFree [])).map fun t => (t.hist, t.onces.destroyed)) =
      some ([.allocated true], true) := by
    decide +kernel
  obtain ⟨s, hs, hx⟩ := Option.bind_eq_some_iff.mp hx
  obtain ⟨t, ht, hx⟩ := Option.map_eq_some_iff.mp hx
  obtain ⟨hhist, hend⟩ := Prod.mk.inj hx
  have hlives := h _ s t _ (Run.iff_execFrom.mpr hs) ht hend true
  rw [hhist] at hlives
  exact absurd (hlives.unique (.allocated .nil)) (by simp)

end XOnce

end Qev
