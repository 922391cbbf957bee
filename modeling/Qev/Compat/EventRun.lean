/-
# When an event's callback may run

An event that is not `Idle` can still run. What others do, and the loop of its own, does not make it
so (`Calm`): only `event_add` and `event_active` do, and `event_del` ends it whatever its watchers were
(`event_del_final`).

An event without `EV_PERSIST` is removed by the callback of its io watcher and of its timer, but not by
that of its signal watcher unless there was an error, so that one is called again and again
(`fires_once`). `event_pending` goes by the events that were asked for, and says nothing of an event that
asked for none and was activated for some (`event_pending_exact`).
-/
import Qev.Compat.EventStep

namespace Qev

open Lib

namespace Compat

variable {U T K F A : Type} [DecidableEq U] [LinearOrder T] [Add T] [Sub T] [Zero T]
variable {e : Setup U T} {l m n : Loop U T K} {s t : Base U T K F A} {u v : U} {ev : Event F A} {a : Act U T F A}

/-! ### event_del -/

/-- What is idle stays so until `event_add` or `event_active`, and its callback is not called. -/
theorem Inv.rests [AddRightMono T] (h : Inv e s) (hs : Compat.step e s a = some t) (ha : ¬ Arms u a)
    (hev : s.evs u ≠ none) (hidle : Idle s.loop u) : Idle t.loop u ∧ t.evs u ≠ none ∧ t.calls u = s.calls u := by
  by_cases hu : About s u a
  · obtain ⟨ev, hev⟩ := Option.ne_none_iff_exists'.mp hev
    obtain ⟨hev', hdone⟩ := h.done hs hev hu
    cases hdone with
    | set _ hidle' hcalls => exact ⟨hidle', hev', hcalls⟩
    | added tv he _ _ _ =>
      rw [he] at ha
      exact absurd rfl ha
    | deleted hidle' hcalls => exact ⟨hidle', hev', hcalls⟩
    | activated res he _ _ _ =>
      rw [he] at ha
      exact absurd rfl ha
    | invoked pri _ hw hp _ _ _ =>
      rw [hidle _ hw] at hp
      exact absurd rfl hp
  · have hp := (h.passes hs).2 u hu
    exact ⟨fun w hw => (hp.calm hev).idle w hw (hidle w hw), by rw [hp.evs]; exact hev, hp.calls⟩

/-- **event_del is final.** It leaves neither half active or pending, in every state, and until a later `event_add`
or `event_active` of the event none becomes so and its callback is not called. -/
theorem event_del_final [Inhabited U] [AddRightMono T] (e : Setup U T) (backend : Backend)
    (noinotify signalfd notimerfd : Bool) (kernel : K) {acts later : List (Act U T F A)}
    (hrun : Runs e (init (Loop.init backend noinotify signalfd notimerfd kernel)) acts s) (hev : s.evs u = some ev)
    (hlater : ∀ a ∈ later, ¬ Arms u a) (ht : Runs e (s.eventDel e u) later t) :
    Idle (s.eventDel e u).loop u ∧ Idle t.loop u ∧ t.calls u = s.calls u := by
  have h := inv_run hrun (inv_init e backend noinotify signalfd notimerfd kernel)
  have hs : step e s (.eventDel u) = some (s.eventDel e u) := rfl
  have h' := h.step hs
  have hidle := Base.eventDel_idle h.tidy hev (h.fits u ev hev)
  have hev' := (h.done hs hev (rfl : About s u (.eventDel u))).1
  have hcalls : (s.eventDel e u).calls u = s.calls u := by
    rw [Base.eventDel_eq hev]
    rfl
  refine ⟨hidle, ?_⟩
  rw [← hcalls]
  clear hs hcalls hrun
  generalize s.eventDel e u = m at ht h' hidle hev'
  induction ht with
  | nil m => exact ⟨hidle, rfl⟩
  | cons hs _ ih =>
    obtain ⟨h₁, h₂, h₃⟩ := h'.rests hs (hlater _ List.mem_cons_self) hev' hidle
    obtain ⟨h₄, h₅⟩ := ih (fun b hb => hlater b (List.mem_cons_of_mem _ hb)) (h'.step hs) h₁ h₂
    exact ⟨h₄, h₅.trans h₃⟩

/-- `1e-6` is the unit of time, and the pipe reads from fd 4. -/
def setup : Setup Bool ℤ := ⟨⟨.four, fun _ _ _ => 0, fun _ _ _ => 0⟩, 1, 4⟩

def newBase : Base Bool ℤ Unit Unit Unit := init (Loop.init .epoll true false true ())

/-- An event that waits for fd 3 until a time has both its halves made pending. -/
def bothPending : List (Act Bool ℤ Unit Unit) :=
  [.fdReify fun _ => false, .fdEvent 3 evRead, .timeUpdate 6 6, .timersReify]

def addWithTimeout : List (Act Bool ℤ Unit Unit) := [.eventSet false 3 evRead () (), .eventAdd false (some 5)]

/-- It is removed, and the loop goes on. -/
def afterDel : List (Act Bool ℤ Unit Unit) :=
  [.invokePending 2, .invokePending 2, .fdEvent 3 evRead, .timeUpdate 20 20, .timersReify]

theorem event_del_final_both : ∃ s t : Base Bool ℤ Unit Unit Unit,
    (s.loop.pend.pending (.io (.user false)) ≠ 0 ∧ s.loop.pend.pending (.timer (.user false)) ≠ 0) ∧
      Idle (s.eventDel setup false).loop false ∧ Idle t.loop false ∧ t.calls false = s.calls false := by
  have hx : ((execFrom (step setup) newBase (addWithTimeout ++ bothPending)).bind
      fun s => (execFrom (step setup) (s.eventDel setup false) afterDel).map fun _ =>
        ((s.evs false).isSome, decide (s.loop.pend.pending (.io (.user false)) ≠ 0 ∧
          s.loop.pend.pending (.timer (.user false)) ≠ 0))) = some (true, true) := by
    decide +kernel
  obtain ⟨s, hs, hx⟩ := Option.bind_eq_some_iff.mp hx
  obtain ⟨t, ht, hx⟩ := Option.map_eq_some_iff.mp hx
  obtain ⟨hev, hpend⟩ := Prod.mk.inj hx
  obtain ⟨ev, hev⟩ := Option.isSome_iff_exists.mp hev
  exact ⟨s, t, of_decide_eq_true hpend, event_del_final setup .epoll true false true () (Run.iff_execFrom.mpr hs) hev
    (by simp [afterDel, Arms]) (Run.iff_execFrom.mpr ht)⟩

/-! ### One call for each event_add -/

/-- The callback of the event's signal watcher is about to be called, for no error. -/
def SignalFires (s : Base U T K F A) (u : U) : Act U T F A → Prop
  | .invokePending pri => (top s pri).w = .signal (.user u) ∧ (top s pri).events &&& evError = 0
  | _ => False

/-- The queue whose last watcher is taken. -/
def Act.invokes : Act U T F A → Option ℕ
  | .invokePending pri => some pri
  | _ => none

instance (s : Base U T K F A) (u : U) (a : Act U T F A) : Decidable (SignalFires s u a) :=
  decidable_of_iff (a.invokes.any fun pri =>
      (top s pri).w = .signal (.user u) ∧ (top s pri).events &&& evError = 0)
    (by cases a <;> simp [SignalFires, Act.invokes])

/-- The event's callback was called once since there were `n` calls, and nothing of the event is left, or it was not
called. -/
def FiredOnce (n : ℕ) (u : U) (s : Base U T K F A) : Prop :=
  s.calls u ≤ n + 1 ∧ (s.calls u ≠ n → Idle s.loop u)

/-- What is pending for the signal watcher was fed while it was active. -/
def Fed (u : U) (l : Loop U T K) : Prop :=
  l.view (.signal (.user u)) = .idle ∨ (l.view (.signal (.user u))).active = true

section

omit [DecidableEq U] [LinearOrder T] [Add T] [Sub T] [Zero T]

theorem Fed.calm (h : Fed u l) (hc : Calm u l m) : Fed u m := by
  rcases h with h | h
  · exact .inl (hc.idle _ rfl h)
  · exact .inr (hc.signal.trans h)

end

theorem Inv.fed [AddRightMono T] (h : Inv e s) (hs : Compat.step e s a = some t) (ha : ¬ Arms u a)
    (hev : s.evs u ≠ none) (hfed : Fed u s.loop) : Fed u t.loop := by
  by_cases hu : About s u a
  · obtain ⟨ev, hev⟩ := Option.ne_none_iff_exists'.mp hev
    obtain ⟨-, hdone⟩ := h.done hs hev hu
    cases hdone with
    | set _ hidle _ => exact .inl (hidle _ rfl)
    | added tv he _ _ _ =>
      rw [he] at ha
      exact absurd rfl ha
    | deleted hidle _ => exact .inl (hidle _ rfl)
    | activated res he _ _ _ =>
      rw [he] at ha
      exact absurd rfl ha
    | invoked pri _ _ _ _ _ hleft =>
      split at hleft
      · exact .inl (hleft _ rfl)
      · exact hfed.calm hleft
  · exact hfed.calm (((h.passes hs).2 u hu).calm hev)

/-- What holds since the event was added, however often it was called. -/
structure Added (e : Setup U T) (n : ℕ) (u : U) (s : Base U T K F A) : Prop where
  inv : Inv e s
  evs : s.evs u ≠ none
  fed : Fed u s.loop
  least : n ≤ s.calls u

/-- Before the one call, or after it. -/
def Spent (n : ℕ) (u : U) (s : Base U T K F A) : Prop :=
  s.calls u = n ∧ (∀ ev, s.evs u = some ev → ev.has evPersist = false) ∨ s.calls u ≤ n + 1 ∧ Idle s.loop u

section

omit [LinearOrder T] [Add T] [Sub T] [Zero T]

theorem Spent.fired {k : ℕ} (h : Spent k u s) : FiredOnce k u s := by
  rcases h with ⟨h, -⟩ | ⟨h, hidle⟩
  · exact ⟨by omega, fun hc => absurd h hc⟩
  · exact ⟨h, fun _ => hidle⟩

end

theorem Spent.step [AddRightMono T] {k : ℕ} (h : Spent k u s) (hi : Inv e s) (hev : s.evs u ≠ none)
    (hs : Compat.step e s a = some t) (ha : ¬ Arms u a) (hf : ¬ SignalFires s u a) : Spent k u t := by
  rcases h with ⟨hcalls, hp⟩ | ⟨hcalls, hidle⟩
  · by_cases hu : About s u a
    · obtain ⟨ev, hev⟩ := Option.ne_none_iff_exists'.mp hev
      obtain ⟨-, hdone⟩ := hi.done hs hev hu
      cases hdone with
      | set _ hidle hsame => exact .inr ⟨by omega, hidle⟩
      | added tv he _ _ _ =>
        rw [he] at ha
        exact absurd rfl ha
      | deleted hidle hsame => exact .inr ⟨by omega, hidle⟩
      | activated res he _ _ _ =>
        rw [he] at ha
        exact absurd rfl ha
      | invoked pri he hw _ hone _ hleft =>
        rw [he] at hf
        -- the io half removes what is not persistent, the signal half what had an error
        have hr : removes ev (top s pri).w (top s pri).events = true := by
          rcases owner_eq.mp hw with hw | hw | hw
          · rw [hw]
            simp [removes, hp ev hev]
          · rw [hw]
            simpa [removes] using fun hc => hf ⟨hw, hc⟩
          · rw [hw]
            rfl
        rw [if_pos hr] at hleft
        exact .inr ⟨by omega, hleft⟩
    · have hpass := (hi.passes hs).2 u hu
      exact .inl ⟨hpass.calls.trans hcalls, by rw [hpass.evs]; exact hp⟩
  · obtain ⟨h₁, -, h₂⟩ := hi.rests hs ha hev hidle
    exact .inr ⟨by rw [h₂]; exact hcalls, h₁⟩

theorem Added.step [AddRightMono T] {k : ℕ} (h : Added e k u s) (hs : Compat.step e s a = some t)
    (ha : ¬ Arms u a) : Added e k u t := by
  refine ⟨h.inv.step hs, ?_, h.inv.fed hs ha h.evs h.fed, ?_⟩
  · by_cases hu : About s u a
    · obtain ⟨ev, hev⟩ := Option.ne_none_iff_exists'.mp h.evs
      exact (h.inv.done hs hev hu).1
    · rw [((h.inv.passes hs).2 u hu).evs]
      exact h.evs
  · have hleast := h.least
    by_cases hu : About s u a
    · obtain ⟨ev, hev⟩ := Option.ne_none_iff_exists'.mp h.evs
      obtain ⟨-, hdone⟩ := h.inv.done hs hev hu
      cases hdone with
      | set _ _ hcalls => omega
      | added _ _ _ _ hcalls => omega
      | deleted _ hcalls => omega
      | activated _ _ _ _ hcalls => omega
      | invoked _ _ _ _ hcalls _ _ => omega
    · have hcalls := ((h.inv.passes hs).2 u hu).calls
      omega

/-- `event_add` of an idle event that is not persistent. -/
theorem Inv.add [AddRightMono T] (h : Inv e s) (hev : s.evs u = some ev) (hp : ev.has evPersist = false)
    (hidle : Idle s.loop u) {tv : Option T} (hs : Compat.step e s (.eventAdd u tv) = some t) :
    Added e (s.calls u) u t ∧ Spent (s.calls u) u t := by
  obtain ⟨hev', hdone⟩ := h.done hs hev (rfl : About s u (.eventAdd u tv))
  obtain ⟨-, rfl⟩ := step_eq hs
  obtain ⟨flags, heq⟩ := Base.eventAdd_eq (e := e) hev tv
  obtain ⟨-, h₂, h₃, -⟩ := Base.eventAdd_views h.tidy hev tv
  have hcalls : (s.eventAdd e u tv).2.calls u = s.calls u := by
    rw [heq]
    rfl
  have hself : (s.eventAdd e u tv).2.evs u = some { ev with evFlags := flags } := by
    rw [heq]
    exact Function.update_self ..
  refine ⟨⟨h.step hs, hev', ?_, hcalls.ge⟩, .inl ⟨hcalls, fun ev' hc => ?_⟩⟩
  · rcases iosig_cases u ev with ⟨-, hsig⟩ | ⟨hw, -⟩
    · exact .inr (h₃ hsig)
    · exact .inl ((h₂ _ (by simp [hw]) (by simp) (by simp)).trans (hidle _ rfl))
  · rw [← Option.some.inj (hself.symm.trans hc)]
    exact hp

/-- **One call for each add.** After the one `event_add` of an event that is not persistent, in a run that does not
add or activate it again, its callback is called at most once and nothing of it is left then, exactly if the callback
of its signal watcher is never called without an error. -/
theorem fires_once [Inhabited U] [AddRightMono T] (e : Setup U T) (backend : Backend)
    (noinotify signalfd notimerfd : Bool) (kernel : K) {acts later : List (Act U T F A)} {s' : Base U T K F A}
    (hrun : Runs e (init (Loop.init backend noinotify signalfd notimerfd kernel)) acts s) (hev : s.evs u = some ev)
    (hp : ev.has evPersist = false) (hidle : Idle s.loop u) {tv : Option T}
    (hadd : step e s (.eventAdd u tv) = some s') (hlater : ∀ a ∈ later, ¬ Arms u a) (ht : Runs e s' later t) :
    (∀ past rest, later = past ++ rest → ∀ m, Runs e s' past m → FiredOnce (s.calls u) u m) ↔
      ∀ past a rest, later = past ++ a :: rest → ∀ m, Runs e s' past m → ¬ SignalFires m u a := by
  have h := inv_run hrun (inv_init e backend noinotify signalfd notimerfd kernel)
  obtain ⟨hadded, hspent⟩ := h.add hev hp hidle hadd
  constructor
  · intro hall past a rest hl m hm hfires
    have hm' : Added e (s.calls u) u m := by
      refine Run.guarded (I := fun _ m => Added e (s.calls u) u m) (G := fun _ _ a => ¬ Arms u a)
        (fun _ _ _ _ _ h ha hs => h.step hs ha) hadded (fun p b q hpq _ _ => hlater b ?_) hm
      rw [hl, hpq]
      simp
    -- the next state of the run
    rw [hl] at ht
    obtain ⟨m₁, h₁, h₂⟩ := ht.of_append
    rw [Run.unique h₁ hm] at h₂
    cases h₂ with
    | cons hs _ =>
      have hfired := hall (past ++ [a]) rest (by rw [hl, List.append_assoc]; rfl) _ (hm.snoc hs)
      cases a with
      | invokePending pri =>
        obtain ⟨hw, herr⟩ := hfires
        obtain ⟨ev', hev'⟩ := Option.ne_none_iff_exists'.mp hm'.evs
        obtain ⟨hcnt, rfl⟩ := step_eq hs
        have hown : owner (top m pri).w = some u := by
          rw [hw]
          rfl
        obtain ⟨-, hpend, -, hleft, -, hone⟩ := hm'.inv.invoked hcnt hown hev'
        have hr : removes ev' (top m pri).w (top m pri).events = false := by
          rw [hw]
          simpa [removes] using herr
        rw [if_neg (by rw [hr]; exact Bool.false_ne_true)] at hleft
        have hleast := hm'.least
        have hidle' := hfired.2 (by show (m.invokePending e pri).calls u ≠ _; omega)
        rw [hw] at hpend
        rcases hm'.fed with hc | hc
        · rw [hc] at hpend
          exact hpend rfl
        · have hact := hleft.signal.trans hc
          rw [show (m.invokePending e pri).loop.view _ = _ from hidle' (.signal (.user u)) rfl] at hact
          cases hact
      | _ => exact hfires.elim
  · intro hno past rest hl m hm
    have hm' : Added e (s.calls u) u m ∧ Spent (s.calls u) u m := by
      refine Run.guarded (I := fun _ m => Added e (s.calls u) u m ∧ Spent (s.calls u) u m)
        (G := fun _ m a => ¬ Arms u a ∧ ¬ SignalFires m u a) (fun _ _ _ _ _ h ha hs => ?_) ⟨hadded, hspent⟩
        (fun p b q hpq m' hm'' => ⟨hlater b ?_, hno p b (q ++ rest) ?_ m' hm''⟩) hm
      · exact ⟨h.1.step hs ha.1, h.2.step h.1.inv h.1.evs hs ha.1 ha.2⟩
      · rw [hl, hpq]
        simp
      · rw [hl, hpq, List.append_assoc, List.cons_append]
    exact hm'.2.fired

/-- Both halves are pending when one of them is called. -/
theorem fires_once_both : ∃ t : Base Bool ℤ Unit Unit Unit, t.calls false = 1 ∧ FiredOnce 0 false t := by
  have hx : ((execFrom (step setup) newBase [.eventSet false 3 evRead () ()]).bind fun s =>
      (step setup s (.eventAdd false (some 5))).bind fun s' =>
        (execFrom (step setup) s' (bothPending ++ afterDel)).map fun t =>
          ((s.evs false).any (fun ev => !ev.has evPersist), decide (s.loop.view (.io (.user false)) = .idle ∧
            s.loop.view (.signal (.user false)) = .idle ∧ s.loop.view (.timer (.user false)) = .idle),
            s.calls false, t.calls false,
            checks (step setup) (fun s a => !SignalFires s false a) s' (bothPending ++ afterDel))) =
      some (true, true, 0, 1, true) := by
    decide +kernel
  obtain ⟨s, hs, hx⟩ := Option.bind_eq_some_iff.mp hx
  obtain ⟨s', hadd, hx⟩ := Option.bind_eq_some_iff.mp hx
  obtain ⟨t, ht, hx⟩ := Option.map_eq_some_iff.mp hx
  simp only [Prod.mk.injEq] at hx
  obtain ⟨hev, hidle, hzero, hone, hok⟩ := hx
  obtain ⟨ev, hev, hp⟩ := (Option.any_eq_true _ _).mp hev
  have hfires := (fires_once setup .epoll true false true () (Run.iff_execFrom.mpr hs) hev (by simpa using hp)
    (idle_iff.mpr (of_decide_eq_true hidle)) hadd (by simp [bothPending, afterDel, Arms])
    (Run.iff_execFrom.mpr ht)).mpr fun past a rest hl m hm => by simpa using Run.of_checks hok past a rest hl m hm
  rw [hzero] at hfires
  exact ⟨t, hone, hfires _ [] (List.append_nil _).symm t (Run.iff_execFrom.mpr ht)⟩

/-- Signal 2 arrives twice. -/
def signalTwice : List (Act Bool ℤ Unit Unit) :=
  [.evFeedSignalEvent 2, .invokePending 2, .evFeedSignalEvent 2, .invokePending 2]

/-- An event for a signal, not persistent, that was added once and is called twice. -/
theorem fires_twice : ∃ (s s' t : Base Bool ℤ Unit Unit Unit) (ev : Event Unit Unit),
    Runs setup newBase [.eventSet false 2 evSignal () ()] s ∧ s.evs false = some ev ∧ ev.has evPersist = false ∧
      Idle s.loop false ∧ step setup s (.eventAdd false none) = some s' ∧ (∀ a ∈ signalTwice, ¬ Arms false a) ∧
      Runs setup s' signalTwice t ∧ t.calls false = s.calls false + 2 ∧ ¬ Idle t.loop false := by
  have hx : ((execFrom (step setup) newBase [.eventSet false 2 evSignal () ()]).bind fun s =>
      (step setup s (.eventAdd false none)).bind fun s' =>
        (execFrom (step setup) s' signalTwice).map fun t =>
          ((s.evs false).any (fun ev => !ev.has evPersist), decide (s.loop.view (.io (.user false)) = .idle ∧
            s.loop.view (.signal (.user false)) = .idle ∧ s.loop.view (.timer (.user false)) = .idle),
            decide (t.calls false = s.calls false + 2), (t.loop.view (.signal (.user false))).active)) =
      some (true, true, true, true) := by
    decide +kernel
  obtain ⟨s, hs, hx⟩ := Option.bind_eq_some_iff.mp hx
  obtain ⟨s', hadd, hx⟩ := Option.bind_eq_some_iff.mp hx
  obtain ⟨t, ht, hx⟩ := Option.map_eq_some_iff.mp hx
  simp only [Prod.mk.injEq] at hx
  obtain ⟨hev, hidle, htwo, hact⟩ := hx
  obtain ⟨ev, hev, hp⟩ := (Option.any_eq_true _ _).mp hev
  refine ⟨s, s', t, ev, Run.iff_execFrom.mpr hs, hev, by simpa using hp, idle_iff.mpr (of_decide_eq_true hidle),
    hadd, by simp [signalTwice, Arms], Run.iff_execFrom.mpr ht, of_decide_eq_true htwo, fun hc => ?_⟩
  rw [hc (.signal (.user false)) rfl] at hact
  cases hact

/-! ### event_pending -/

section

omit [DecidableEq U] [LinearOrder T] [Add T] [Sub T] [Zero T]

theorem Base.isUsed_iff (w : Watcher U) : s.isUsed w = true ↔ s.loop.view w ≠ .idle := by
  unfold isUsed Loop.view View.idle
  simp only [decide_eq_true_iff, ne_eq, View.mk.injEq, decide_eq_false_iff_not, Pend.pendingFor_eq_none, not_not]
  tauto

end

/-- `EV_TIMEOUT|EV_READ|EV_WRITE|EV_SIGNAL`. -/
def evAll : Events := evTimer ||| evRead ||| evWrite ||| evSignal

section

omit [DecidableEq U] [LinearOrder T]

theorem Base.eventPending_ne_zero (hev : s.evs u = some ev) (tv : Bool) : (s.eventPending u evAll tv).1 ≠ 0 ↔
    ev.has evSignal = true ∧ s.loop.view (.signal (.user u)) ≠ .idle ∨
      ev.has evSignal = false ∧ ev.has (evRead ||| evWrite) = true ∧ s.loop.view (.io (.user u)) ≠ .idle ∨
      s.loop.view (.timer (.user u)) ≠ .idle := by
  have hmask : ∀ events : Events,
      evAll &&& evAll &&& (events &&& (evRead ||| evWrite)) = events &&& (evRead ||| evWrite) := by
    intro events
    rw [BitVec.and_self, BitVec.and_comm events, ← BitVec.and_assoc]
    rfl
  have hrw : ev.has (evRead ||| evWrite) = true ↔ ev.evEvents &&& (evRead ||| evWrite) ≠ 0 := decide_eq_true_iff
  unfold eventPending
  rw [hev]
  dsimp only
  have hto : ∀ revents : Events, evAll &&& evAll &&& (revents ||| evTimer) ≠ 0 :=
    fun revents => (and_or_ne_zero _ _ _).mpr (.inr (by decide))
  have hsig : evAll &&& evAll &&& evSignal ≠ 0 := by decide
  have hnone : ¬ evAll &&& evAll &&& (0 : Events) ≠ 0 := by decide
  by_cases ht : s.isUsed (.timer (.user u)) = true
  · rw [if_pos ht]
    exact iff_of_true (hto _) (.inr (.inr ((isUsed_iff _).mp ht)))
  · rw [if_neg ht]
    have hidle : ¬ s.loop.view (.timer (.user u)) ≠ .idle := fun hc => ht ((isUsed_iff _).mpr hc)
    cases hs : ev.has evSignal with
    | true =>
      have hio := isUsed_iff (s := s) (.signal (.user u))
      by_cases hu : s.isUsed (.signal (.user u)) = true
      · rw [if_pos rfl, if_pos hu]
        exact iff_of_true hsig (.inl ⟨rfl, hio.mp hu⟩)
      · rw [if_pos rfl, if_neg hu]
        refine iff_of_false hnone ?_
        rintro (⟨-, hc⟩ | ⟨hc, -⟩ | hc)
        · exact hu (hio.mpr hc)
        · cases hc
        · exact hidle hc
    | false =>
      have hio := isUsed_iff (s := s) (.io (.user u))
      rw [if_neg Bool.false_ne_true]
      cases hr : ev.has (evRead ||| evWrite) with
      | true =>
        by_cases hu : s.isUsed (.io (.user u)) = true
        · rw [if_pos rfl, if_pos hu]
          refine iff_of_true ?_ (.inr (.inl ⟨rfl, rfl, hio.mp hu⟩))
          show evAll &&& evAll &&& _ ≠ 0
          rw [hmask]
          exact hrw.mp hr
        · rw [if_pos rfl, if_neg hu]
          refine iff_of_false hnone ?_
          rintro (⟨hc, -⟩ | ⟨-, -, hc⟩ | hc)
          · cases hc
          · exact hu (hio.mpr hc)
          · exact hidle hc
      | false =>
        rw [if_neg Bool.false_ne_true]
        refine iff_of_false hnone ?_
        rintro (⟨hc, -⟩ | ⟨-, hc, -⟩ | hc)
        · cases hc
        · cases hc
        · exact hidle hc

end

/-- An event that asked for neither signals nor io. -/
def Event.unasked (ev : Event F A) : Bool := !ev.has evSignal && !ev.has (evRead ||| evWrite)

/-- It asked for no events, was activated for some, and its timer is neither active nor pending. -/
def Overlooked (s : Base U T K F A) (u : U) (ev : Event F A) : Prop :=
  ev.unasked ∧ s.loop.pend.pending (.io (.user u)) ≠ 0 ∧ s.loop.view (.timer (.user u)) = .idle

/-- `event_active` of an event that asked for no events, for some. -/
def Stray (s : Base U T K F A) : Act U T F A → Prop
  | .eventActive u res => (s.evs u).any (·.unasked) ∧ res &&& (evSignal ||| (evRead ||| evWrite)) ≠ 0
  | _ => False

/-- The event that `event_active` is called for. -/
def Act.activates : Act U T F A → Option (U × Events)
  | .eventActive u res => some (u, res)
  | _ => none

instance (s : Base U T K F A) (a : Act U T F A) : Decidable (Stray s a) :=
  decidable_of_iff (a.activates.any fun x =>
      (s.evs x.1).any (·.unasked) ∧ x.2 &&& (evSignal ||| (evRead ||| evWrite)) ≠ 0)
    (by cases a <;> simp [Stray, Act.activates])

theorem Inv.pending_iff (h : Inv e s) (hev : s.evs u = some ev) (tv : Bool) :
    ((s.eventPending u evAll tv).1 ≠ 0 ↔ ¬ Idle s.loop u) ↔ ¬ Overlooked s u ev := by
  have hfits := h.fits u ev hev
  have hio : ev.unasked = true →
      (s.loop.view (.io (.user u)) = .idle ↔ s.loop.pend.pending (.io (.user u)) = 0) := by
    intro hno
    unfold Event.unasked at hno
    rw [Bool.and_eq_true, Bool.not_eq_true', Bool.not_eq_true'] at hno
    have hact := hfits.unasked hno.1 hno.2
    have hp := Pend.pendingFor_eq_none (p := s.loop.pend) (w := .io (.user u))
    refine ⟨fun hc => hp.mp (congrArg View.pending hc), fun hc => ?_⟩
    unfold View.idle
    rw [← hact, ← hp.mpr hc]
    rfl
  rw [Base.eventPending_ne_zero hev, idle_iff]
  unfold Overlooked
  cases hs : ev.has evSignal with
  | true =>
    have hno : ev.unasked = false := by simp [Event.unasked, hs]
    rw [hno, hfits.io hs]
    simp
    tauto
  | false =>
    rw [hfits.signal hs]
    cases hr : ev.has (evRead ||| evWrite) with
    | true =>
      have hno : ev.unasked = false := by simp [Event.unasked, hr]
      rw [hno]
      simp
      tauto
    | false =>
      have hno : ev.unasked = true := by simp [Event.unasked, hs, hr]
      rw [hno, hio hno]
      simp
      tauto

/-- The io watcher of an event that asked for no events is idle. -/
def Quiet (s : Base U T K F A) : Prop :=
  ∀ u ev, s.evs u = some ev → ev.unasked = true → s.loop.view (.io (.user u)) = .idle

theorem unasked_congr {ev ev' : Event F A} (he : ev'.evEvents = ev.evEvents) : ev'.unasked = ev.unasked := by
  unfold Event.unasked
  rw [has_congr he, has_congr he]

theorem Quiet.step [AddRightMono T] (hq : Quiet s) (h : Inv e s) (hs : Compat.step e s a = some t)
    (ha : ¬ Stray s a) : Quiet t := by
  intro u ev' hev' hno
  by_cases hu : About s u a
  · cases hev : s.evs u with
    | none =>
      rcases h.setFirst hs hev hu with hidle | hnone
      · exact hidle _ rfl
      · cases hnone.symm.trans hev'
    | some ev =>
      obtain ⟨-, hdone⟩ := h.done hs hev hu
      cases hdone with
      | set _ hidle _ => exact hidle _ rfl
      | added tv _ hself hloop _ =>
        obtain ⟨ev'', hself, he⟩ := hself
        have hev'' := Option.some.inj (hself.symm.trans hev')
        rw [← hev'', unasked_congr he] at hno
        have hkeep := hq u ev hev hno
        unfold Event.unasked at hno
        rw [Bool.and_eq_true, Bool.not_eq_true', Bool.not_eq_true'] at hno
        rw [hloop]
        exact ((Base.eventAdd_views h.tidy hev tv).2.2.2 hno.1 hno.2).trans hkeep
      | deleted hidle _ => exact hidle _ rfl
      | activated res heq ht hevs _ =>
        have hev'' := Option.some.inj (hev.symm.trans ((congrFun hevs u).symm.trans hev'))
        rw [← hev''] at hno
        rw [heq] at ha
        have hres : res &&& (evSignal ||| (evRead ||| evWrite)) = 0 :=
          not_not.mp fun hc => ha ⟨by rw [hev]; exact hno, hc⟩
        have hkeep := (Base.eventActive_views h.tidy hev res).2.2.2 hres
        have hio : iosig u ev = .io (.user u) := by
          unfold Event.unasked at hno
          rw [Bool.and_eq_true, Bool.not_eq_true'] at hno
          exact if_neg (by rw [hno.1]; exact Bool.false_ne_true)
        rw [hio] at hkeep
        rw [ht, hkeep]
        exact hq u ev hev hno
      | invoked pri _ _ _ _ hself hleft =>
        split at hleft
        · exact hleft _ rfl
        · obtain ⟨ev'', hself, he⟩ := hself
          have hev'' := Option.some.inj (hself.symm.trans hev')
          rw [← hev'', unasked_congr he] at hno
          exact hleft.idle _ rfl (hq u ev hev hno)
  · have hp := (h.passes hs).2 u hu
    rw [hp.evs] at hev'
    exact (hp.calm fun hc => Option.some_ne_none _ (hev'.symm.trans hc)).idle _ rfl (hq u ev' hev' hno)

/-- **event_pending is exact** in a state, if and only if no event that asked for none is pending for some alone; and
in every state of a run in which no such event is activated for some. -/
theorem event_pending_exact [Inhabited U] [AddRightMono T] (e : Setup U T) (backend : Backend)
    (noinotify signalfd notimerfd : Bool) (kernel : K) {acts : List (Act U T F A)}
    (hrun : Runs e (init (Loop.init backend noinotify signalfd notimerfd kernel)) acts s) (hev : s.evs u = some ev)
    (tv : Bool) :
    (((s.eventPending u evAll tv).1 ≠ 0 ↔ ¬ Idle s.loop u) ↔ ¬ Overlooked s u ev) ∧
      ((∀ past a later, acts = past ++ a :: later →
          ∀ m, Runs e (init (Loop.init backend noinotify signalfd notimerfd kernel)) past m → ¬ Stray m a) →
        ((s.eventPending u evAll tv).1 ≠ 0 ↔ ¬ Idle s.loop u)) := by
  have h0 := inv_init (F := F) (A := A) e backend noinotify signalfd notimerfd kernel
  have h := inv_run hrun h0
  refine ⟨h.pending_iff hev tv, fun hno => (h.pending_iff hev tv).mpr fun hover => ?_⟩
  have hquiet : Inv e s ∧ Quiet s :=
    Run.guarded (I := fun _ s => Inv e s ∧ Quiet s) (G := fun _ s a => ¬ Stray s a)
      (fun _ _ _ _ _ h ha hs => ⟨h.1.step hs, h.2.step h.1 hs ha⟩) ⟨h0, fun _ _ hc => by cases hc⟩ hno hrun
  obtain ⟨hun, hpend, -⟩ := hover
  exact hpend (Pend.pendingFor_eq_none.mp (congrArg View.pending (hquiet.2 u ev hev hun)))

/-- An event that asked for a timeout only. -/
def timeoutOnly : List (Act Bool ℤ Unit Unit) := [.eventSet false (-1) 0 () (), .eventAdd false (some 5)]

theorem event_pending_exact_timeout : ∃ s : Base Bool ℤ Unit Unit Unit,
    (s.eventPending false evAll true).1 ≠ 0 ∧ ¬ Idle s.loop false := by
  have hx : (execFrom (step setup) newBase timeoutOnly).map (fun s =>
      ((s.evs false).isSome, (s.loop.view (.timer (.user false))).active,
        checks (step setup) (fun s a => !Stray s a) newBase timeoutOnly)) = some (true, true, true) := by
    decide +kernel
  obtain ⟨s, hs, hx⟩ := Option.map_eq_some_iff.mp hx
  simp only [Prod.mk.injEq] at hx
  obtain ⟨hev, hact, hok⟩ := hx
  obtain ⟨ev, hev⟩ := Option.isSome_iff_exists.mp hev
  have hexact := (event_pending_exact setup .epoll true false true () (Run.iff_execFrom.mpr hs) hev true).2
    fun past a rest hl m hm => by simpa using Run.of_checks hok past a rest hl m hm
  have hbusy : ¬ Idle s.loop false := fun hc => by
    rw [hc (.timer (.user false)) rfl] at hact
    cases hact
  exact ⟨s, hexact.mpr hbusy, hbusy⟩

/-- An event that asked for a timeout only is activated as readable. -/
theorem event_pending_overlooks : ∃ s : Base Bool ℤ Unit Unit Unit,
    Runs setup newBase [.eventSet false (-1) 0 () (), .eventActive false evRead] s ∧ (s.evs false).isSome ∧
      (s.eventPending false evAll false).1 = 0 ∧ ¬ Idle s.loop false := by
  have hx : (execFrom (step setup) newBase [.eventSet false (-1) 0 () (), .eventActive false evRead]).map (fun s =>
      ((s.evs false).isSome, (s.eventPending false evAll false).1, (s.loop.view (.io (.user false))).pending)) =
      some (true, 0, some evRead) := by
    decide +kernel
  obtain ⟨s, hs, hx⟩ := Option.map_eq_some_iff.mp hx
  simp only [Prod.mk.injEq] at hx
  obtain ⟨hev, hzero, hpend⟩ := hx
  refine ⟨s, Run.iff_execFrom.mpr hs, hev, hzero, fun hc => ?_⟩
  rw [hc (.io (.user false)) rfl] at hpend
  cases hpend

end Compat
end Qev
