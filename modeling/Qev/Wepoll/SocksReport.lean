/-
# What a wepoll port reports

From outside a port is an epoll set (`view`): sockets, with the events that are asked for each of them and the data
that comes with them. The steps do to it what `epoll_ctl` is called for, and a socket that was closed leaves it. What
`epoll_wait` reports is what was asked last, and after a one-shot nothing is asked, although polls for the events
that were asked before can end later.
-/
import Qev.Wepoll.SocksRun

namespace Qev
namespace Wepoll
namespace Socks

open Lib State

/-- The socket whose events `EPOLL_CTL_ADD` or `EPOLL_CTL_MOD` asks for. -/
def Act.asks : Act → Option ℕ
  | .ctlAdd (some _) socket _ _ _ | .ctlMod socket _ _ _ => some socket
  | _ => none

namespace State

variable (s : State)

/-- The epoll set. -/
def view (socket : ℕ) : Option Interest :=
  (s.portFindSocket socket).bind fun a => (s.heap a).map fun k => ⟨k.userEvents, k.userData⟩

/-- What `port__feed_events` reports of a socket in a step: the events and the data. -/
def report (socket : ℕ) : Act → Option (BitVec 32 × ℕ)
  | .feed i => (s.completions[i]?).bind fun x =>
      if (s.heap x.1).any (fun k => k.socket = socket) then
        ({ s with completions := s.completions.eraseIdx i }.sockFeedEvent x.1 x.2).2
      else none
  | _ => none

/-- What is reported of a socket. -/
def reports (socket : ℕ) : State → List Act → List (BitVec 32 × ℕ)
  | _, [] => []
  | s, act :: acts =>
    (s.report socket act).toList ++
      match s.step act with
      | none => []
      | some t => reports socket t acts

/-- The `sock_state`s of which a step to `t` learns that their sockets were closed. -/
def closes (t : State) : Act → ℕ → Prop
  | .ctlAdd _ _ _ _ _ | .ctlMod _ _ _ _ | .poll _ | .update _ => Refused s t
  | .feed i => fun a => ∃ o, s.completions[i]? = some (a, o) ∧ o.Closed
  | .ctlDel _ _ | .complete _ _ | .leave => fun _ => False

end State

/-! ### An epoll set -/

/-- What `epoll_ctl` does to an epoll set. -/
def Act.call (v : ℕ → Option Interest) : Act → ℕ → Option Interest
  | .ctlAdd (some _) socket events data _ =>
    if (v socket).isSome then v else Function.update v socket (some ⟨events ||| epollErr ||| epollHup, data⟩)
  | .ctlMod socket events data _ =>
    if (v socket).isSome then Function.update v socket (some ⟨events ||| epollErr ||| epollHup, data⟩) else v
  | .ctlDel socket _ => Function.update v socket none
  | _ => v

section Call

variable {v : ℕ → Option Interest} {i : Interest} {a n data : ℕ} {events : BitVec 32} {answers : ℕ → Answer}

theorem call_ctlAdd (hv : v n = none) : Act.call v (.ctlAdd (some a) n events data answers) =
    Function.update v n (some ⟨events ||| epollErr ||| epollHup, data⟩) :=
  if_neg (by rw [hv]; exact Bool.false_ne_true)

theorem call_ctlAdd_again (hv : v n = some i) : Act.call v (.ctlAdd (some a) n events data answers) = v :=
  if_pos (by rw [hv]; rfl)

theorem call_ctlMod (hv : v n = some i) : Act.call v (.ctlMod n events data answers) =
    Function.update v n (some ⟨events ||| epollErr ||| epollHup, data⟩) :=
  if_pos (by rw [hv]; rfl)

theorem call_ctlMod_none (hv : v n = none) : Act.call v (.ctlMod n events data answers) = v :=
  if_neg (by rw [hv]; exact Bool.false_ne_true)

end Call

/-- The `sock_state` that `EPOLL_CTL_ADD` makes. -/
def Act.Adds (a socket : ℕ) (act : Act) : Prop :=
  ∃ events data answers, act = .ctlAdd (some a) socket events data answers

/-- What is asked after a report: nothing, if it was asked for once. -/
def Interest.told (i : Interest) : Interest := ⟨if i.events &&& epollOneshot ≠ 0 then 0 else i.events, i.data⟩

/-- What is asked after a step, which reported this. -/
def told (report : Option (BitVec 32 × ℕ)) (i : Option Interest) : Option Interest :=
  if report.isSome then i.map Interest.told else i

/-! ### The sockets differ -/

/-- No two `sock_state`s in the set are of the same socket. -/
def Keyed (s : State) : Prop := ∀ a b n i j, s.entry a = some (n, i) → s.entry b = some (n, j) → a = b

variable {s t u : State} {a n : ℕ} {i : Interest} {closed : ℕ → Prop}

theorem entry_of_find (hs : Sound s) (hf : s.portFindSocket n = some a) :
    ∃ i, s.entry a = some (n, i) ∧ s.view n = some i := by
  obtain ⟨k, hk, hfits, rfl, htree, -⟩ := hs.found hf
  refine ⟨⟨k.userEvents, k.userData⟩, entry_of_mem (mem_sockTree.mpr htree) hk, ?_⟩
  unfold State.view
  rw [hf, Option.bind_some, hk, Option.map_some]

theorem view_of_not_found (hf : s.portFindSocket n = none) : s.view n = none := by
  unfold State.view
  rw [hf, Option.bind_none]

theorem find_of_entry (hs : Sound s) (hk : Keyed s) (h : s.entry a = some (n, i)) : s.portFindSocket n = some a := by
  unfold State.entry at h
  split at h
  · rename_i hmem
    obtain ⟨k, hheap, hkey⟩ := Option.map_eq_some_iff.mp h
    cases hf : s.portFindSocket n with
    | none =>
      refine absurd ?_ (List.find?_eq_none.mp hf a hmem)
      rw [hheap]
      exact decide_eq_true (Prod.mk.inj hkey).1
    | some b =>
      obtain ⟨j, hj, -⟩ := entry_of_find hs hf
      rw [hk b a n j i hj ((entry_of_mem hmem hheap).trans (congrArg some hkey))]
  · cases h

/-- The epoll set is what the `sock_state`s in the tree say. -/
theorem view_eq_some (hs : Sound s) (hk : Keyed s) : s.view n = some i ↔ ∃ a, s.entry a = some (n, i) := by
  constructor
  · intro h
    obtain ⟨a, hf, -⟩ := Option.bind_eq_some_iff.mp h
    obtain ⟨j, hj, hview⟩ := entry_of_find hs hf
    cases hview.symm.trans h
    exact ⟨a, hj⟩
  · rintro ⟨a, ha⟩
    obtain ⟨j, hj, hview⟩ := entry_of_find hs (find_of_entry hs hk ha)
    cases hj.symm.trans ha
    exact hview

theorem view_ext {v : ℕ → Option Interest} (hs : Sound s) (hk : Keyed s)
    (h : ∀ m j, v m = some j ↔ ∃ a, s.entry a = some (m, j)) : s.view = v := by
  funext m
  exact Option.ext fun j => (view_eq_some hs hk).trans (h m j).symm

theorem Dropped.sub (hd : Dropped closed s t) {b : ℕ} (h : t.entry b = some (n, i)) : s.entry b = some (n, i) := by
  rcases hd b with hb | hb
  · exact hb ▸ h
  · rw [hb.2] at h
    cases h

theorem Keyed.dropped (hk : Keyed s) (hd : Dropped closed s t) : Keyed t :=
  fun a b m i j ha hb => hk a b m i j (hd.sub ha) (hd.sub hb)

/-- A socket is added, or one in the set is changed. -/
theorem Keyed.sets (hk : Keyed s) (hset : Sets a n i s t) (hnew : ∀ b j, b ≠ a → s.entry b ≠ some (n, j)) :
    Keyed t := by
  have hself : ∀ {c m j}, c ≠ a → t.entry c = some (m, j) → s.entry c = some (m, j) := by
    intro c m j hc h
    rwa [← hset.2.1 c hc]
  have hkey : ∀ {m j}, t.entry a = some (m, j) → m = n := by
    intro m j h
    exact (Prod.mk.inj (Option.some.inj (h.symm.trans hset.1))).1
  intro b c m j j' hb hc
  by_cases hba : b = a
  · by_cases hca : c = a
    · rw [hba, hca]
    · subst hba
      cases hkey hb
      exact absurd (hself hca hc) (hnew c j' hca)
  · by_cases hca : c = a
    · subst hca
      cases hkey hc
      exact absurd (hself hba hb) (hnew b j hba)
    · exact hk b c m j j' (hself hba hb) (hself hca hc)

/-! ### What a step does to the epoll set -/

/-- A socket leaves the set only if it was closed. -/
theorem Dropped.view (hs : Sound s) (hk : Keyed s) (ht : Sound t) (hd : Dropped closed s t) (n : ℕ) :
    t.view n = s.view n ∨ t.view n = none ∧ ∃ a, closed a ∧ s.portFindSocket n = some a := by
  cases hv : t.view n with
  | some j =>
    obtain ⟨b, hb⟩ := (view_eq_some ht (hk.dropped hd)).mp hv
    exact .inl ((view_eq_some hs hk).mpr ⟨b, hd.sub hb⟩).symm
  | none =>
    cases hold : s.view n with
    | none => exact .inl rfl
    | some i =>
      obtain ⟨a, ha⟩ := (view_eq_some hs hk).mp hold
      rcases hd a with hsame | ⟨hclosed, -⟩
      · cases hv.symm.trans ((view_eq_some ht (hk.dropped hd)).mpr ⟨a, hsame.trans ha⟩)
      · exact .inr ⟨rfl, a, hclosed, find_of_entry hs hk ha⟩

theorem Sets.view (hs : Sound s) (hk : Keyed s) (ht : Sound t) (hset : Sets a n i s t)
    (hnew : ∀ b j, b ≠ a → s.entry b ≠ some (n, j)) : t.view = Function.update s.view n (some i) := by
  have hkt := hk.sets hset hnew
  refine view_ext ht hkt fun m j => ?_
  rcases eq_or_ne m n with rfl | hm
  · rw [Function.update_self]
    constructor
    · rintro ⟨⟩
      exact ⟨a, hset.1⟩
    · rintro ⟨b, hb⟩
      cases hkt b a m j i hb hset.1
      exact congrArg some (Prod.mk.inj (Option.some.inj (hset.1.symm.trans hb))).2
  · rw [Function.update_of_ne hm, view_eq_some hs hk]
    refine exists_congr fun b => ?_
    rcases eq_or_ne b a with rfl | hb
    · refine iff_of_false (fun h => hm (hset.2.2 m j h)) fun h => hm ?_
      exact (Prod.mk.inj (Option.some.inj (h.symm.trans hset.1))).1
    · rw [hset.2.1 b hb]

theorem dropped_deleted (hnone : t.entry a = none) (hother : ∀ b, b ≠ a → t.entry b = s.entry b) :
    Dropped (fun b => b = a) s t := by
  intro b
  rcases eq_or_ne b a with rfl | hb
  · exact .inr ⟨rfl, hnone⟩
  · exact .inl (hother b hb)

theorem view_deleted (hs : Sound s) (hk : Keyed s) (ht : Sound t) (ha : s.entry a = some (n, i))
    (hnone : t.entry a = none) (hother : ∀ b, b ≠ a → t.entry b = s.entry b) :
    t.view = Function.update s.view n none := by
  have hd := dropped_deleted hnone hother
  refine view_ext ht (hk.dropped hd) fun m j => ?_
  rcases eq_or_ne m n with rfl | hm
  · rw [Function.update_self]
    refine iff_of_false (Option.some_ne_none j).symm fun ⟨b, hb⟩ => ?_
    cases hk b a m j i (hd.sub hb) ha
    cases hnone.symm.trans hb
  · rw [Function.update_of_ne hm, view_eq_some hs hk]
    refine exists_congr fun b => ?_
    rcases eq_or_ne b a with rfl | hb
    · rw [ha, hnone]
      exact iff_of_false (fun h => hm (Prod.mk.inj (Option.some.inj h)).1.symm) (Option.some_ne_none _).symm
    · rw [hother b hb]


theorem Sets.found {m b : ℕ} (hs : Sound s) (hk : Keyed s) (ht : Sound t) (hset : Sets a n i s t)
    (hf : t.portFindSocket m = some b) : s.portFindSocket m = some b ∨ b = a ∧ m = n := by
  obtain ⟨j, hj, -⟩ := entry_of_find ht hf
  rcases eq_or_ne b a with rfl | hb
  · exact .inr ⟨rfl, (Prod.mk.inj (Option.some.inj (hj.symm.trans hset.1))).1⟩
  · exact .inl (find_of_entry hs hk ((hset.2.1 b hb).symm.trans hj))

/-- A step does to the epoll set what is called for, which gives `u`, and then sockets that were closed leave it. -/
structure Called (s : State) (act : Act) (u t : State) : Prop where
  sound : Sound u
  keyed : Keyed u
  view : u.view = act.call s.view
  dropped : Dropped (s.closes t act) u t
  unreported : ∀ m, s.report m act = none
  found : ∀ m b, u.portFindSocket m = some b → s.portFindSocket m = some b ∨ act.Adds b m

/-- A step is a call, with what `port__update_events` finds out, or reports events of a socket. -/
theorem step_cases {act : Act} (hs : Sound s) (hk : Keyed s) (ht : s.step act = some t) :
    (∃ u, Called s act u t) ∨
      Keyed t ∧ act.call s.view = s.view ∧ ∃ n i events, s.view n = some i ∧ events ≠ 0 ∧
        events &&& ~~~i.events = 0 ∧ t.view = Function.update s.view n (some i.told) ∧
        ∀ m, s.report m act = if n = m then some (events, i.data) else none := by
  have hst := sound_step hs ht
  have hquiet : act.call s.view = s.view → Dropped (s.closes t act) s t → (∀ m, s.report m act = none) →
      ∃ u, Called s act u t :=
    fun hcall hd hnone => ⟨s, hs, hk, hcall.symm, hd, hnone, fun m b hf => .inl hf⟩
  cases act with
  | ctlAdd memory socket events data answers =>
    left
    cases memory with
    | none =>
      cases ht
      exact hquiet rfl (.refl _ s) fun _ => rfl
    | some a =>
      obtain ⟨-, ⟨⟨b, hb⟩, rfl⟩ | ⟨hf, u, hu, hset, hdropped⟩⟩ := sound_portCtlAdd hs ht
      · obtain ⟨i, -, hi⟩ := entry_of_find hs hb
        exact hquiet (call_ctlAdd_again hi) (.refl _ t) fun _ => rfl
      · have hnew : ∀ b j, b ≠ a → s.entry b ≠ some (socket, j) := by
          intro b j _ hb
          cases hf.symm.trans (find_of_entry hs hk hb)
        have hview : u.view = Act.call s.view (.ctlAdd (some a) socket events data answers) := by
          rw [call_ctlAdd (view_of_not_found hf)]
          exact hset.view hs hk hu hnew
        refine ⟨u, hu, hk.sets hset hnew, hview, hdropped, fun _ => rfl, ?_⟩
        intro m b hb
        refine (hset.found hs hk hu hb).imp_right ?_
        rintro ⟨rfl, rfl⟩
        exact ⟨events, data, answers, rfl⟩
  | ctlMod socket events data answers =>
    left
    obtain ⟨-, ⟨hf, rfl⟩ | ⟨a, hf, u, hu, hset, hdropped⟩⟩ := sound_portCtlMod hs ht
    · exact hquiet (call_ctlMod_none (view_of_not_found hf)) (.refl _ t) fun _ => rfl
    · obtain ⟨i, ha, hi⟩ := entry_of_find hs hf
      have hother : ∀ b j, b ≠ a → s.entry b ≠ some (socket, j) := fun b j hne hb => hne (hk b a socket j i hb ha)
      have hview : u.view = Act.call s.view (.ctlMod socket events data answers) := by
        rw [call_ctlMod hi]
        exact hset.view hs hk hu hother
      refine ⟨u, hu, hk.sets hset hother, hview, hdropped, fun _ => rfl, ?_⟩
      intro m b hb
      refine .inl ((hset.found hs hk hu hb).elim id ?_)
      rintro ⟨rfl, rfl⟩
      exact hf
  | ctlDel socket cancelled =>
    left
    cases ht
    obtain ⟨-, ⟨hf, hsame⟩ | ⟨a, hf, hnone, hother⟩⟩ := sound_portCtlDel hs socket cancelled
    · refine hquiet ?_ ?_ fun _ => rfl
      · exact Function.update_eq_self_iff.mpr (view_of_not_found hf).symm
      · rw [hsame]
        exact .refl _ s
    · obtain ⟨i, ha, -⟩ := entry_of_find hs hf
      have hd := dropped_deleted hnone hother
      refine ⟨_, hst, hk.dropped hd, view_deleted hs hk hst ha hnone hother, .refl _ _, fun _ => rfl, ?_⟩
      intro m b hb
      obtain ⟨j, hj, -⟩ := entry_of_find hst hb
      exact .inl (find_of_entry hs hk (hd.sub hj))
  | poll answers => exact .inl (hquiet rfl (sound_portPoll hs ht).2 fun _ => rfl)
  | complete a c => exact .inl (hquiet rfl (fun b => .inl ((sound_complete hs ht).2 b)) fun _ => rfl)
  | leave =>
    simp only [step] at ht
    split at ht
    · cases ht
      exact .inl (hquiet rfl (.refl _ s) fun _ => rfl)
    · cases ht
  | feed x =>
    obtain ⟨-, a, o, k, hx, hheap, hreport⟩ := sound_feed hs ht
    have heq : ∀ m, s.report m (.feed x) = if k.socket = m then
        ({ s with completions := s.completions.eraseIdx x }.sockFeedEvent a o).2 else none := by
      intro m
      simp only [State.report, hx, Option.bind_some, hheap, Option.any_some, decide_eq_true_eq]
    rcases hreport with ⟨hnone, hdropped⟩ | ⟨events, hsome, hne, hasked, ha, hset⟩
    · refine .inl (hquiet rfl (hdropped.mono ?_) fun m => ?_)
      · rintro b ⟨rfl, hclosed⟩
        exact ⟨o, hx, hclosed⟩
      · rw [heq m, hnone, ite_self]
    · have hentry := entry_of_mem ha hheap
      have hother : ∀ b j, b ≠ a → s.entry b ≠ some (k.socket, j) := fun b j hne hb =>
        hne (hk b a k.socket j _ hb hentry)
      refine .inr ⟨hk.sets hset hother, rfl, k.socket, _, events, (view_eq_some hs hk).mpr ⟨a, hentry⟩, hne, hasked,
        hset.view hs hk hst hother, fun m => ?_⟩
      rw [heq m, hsome]
  | update answers => exact .inl (hquiet rfl (hs.polling answers ht).2 fun _ => rfl)

theorem keyed_step {act : Act} (hs : Sound s) (hk : Keyed s) (ht : s.step act = some t) : Keyed t := by
  rcases step_cases hs hk ht with ⟨u, hu⟩ | ⟨hkt, -⟩
  · exact hu.keyed.dropped hu.dropped
  · exact hkt

/-- The port does to its epoll set what is called for and reported, and else only closed sockets leave it. What it
reports was asked for. -/
theorem view_refines {act : Act} (hs : Sound s) (hk : Keyed s) (ht : s.step act = some t) (n : ℕ) :
    (t.view n = told (s.report n act) (act.call s.view n) ∨
      t.view n = none ∧ ∃ a, s.closes t act a ∧ (s.portFindSocket n = some a ∨ act.Adds a n)) ∧
      ∀ events data, s.report n act = some (events, data) →
        ∃ i, s.view n = some i ∧ data = i.data ∧ events ≠ 0 ∧ events &&& ~~~i.events = 0 := by
  rcases step_cases hs hk ht with ⟨u, hu⟩ | ⟨-, hcall, m, i, events, hi, hne, hasked, hview, hreport⟩
  · rw [hu.unreported n, ← hu.view]
    refine ⟨?_, fun events data h => absurd h.symm (Option.some_ne_none _)⟩
    refine (hu.dropped.view hu.sound hu.keyed (sound_step hs ht) n).imp_right ?_
    rintro ⟨hnone, a, hclosed, hf⟩
    exact ⟨hnone, a, hclosed, hu.found n a hf⟩
  · rw [hreport n, hcall, hview]
    rcases eq_or_ne m n with rfl | hm
    · rw [if_pos rfl, Function.update_self, hi]
      refine ⟨.inl rfl, fun e data h => ?_⟩
      cases h
      exact ⟨i, rfl, rfl, hne, hasked⟩
    · rw [if_neg hm, Function.update_of_ne hm.symm]
      exact ⟨.inl rfl, fun events data h => absurd h.symm (Option.some_ne_none _)⟩

theorem report_none {act : Act} (h : s.step act = none) : s.report n act = none := by
  cases act with
  | feed i =>
    simp only [step, feed] at h
    cases hi : s.completions[i]? with
    | none => simp [State.report, hi]
    | some x =>
      rw [hi] at h
      cases h
  | _ => rfl

theorem Act.call_of_asks {act : Act} {v : ℕ → Option Interest} (hn : act.asks ≠ some n) :
    act.call v n = v n ∨ act.call v n = none := by
  have hne : ∀ {m}, act.asks = some m → n ≠ m := fun h heq => hn (heq ▸ h)
  cases act with
  | ctlAdd memory socket events data answers =>
    cases memory with
    | none => exact .inl rfl
    | some a =>
      simp only [call]
      split
      · exact .inl rfl
      · exact .inl (Function.update_of_ne (hne rfl) _ _)
  | ctlMod socket events data answers =>
    simp only [call]
    split
    · exact .inl (Function.update_of_ne (hne rfl) _ _)
    · exact .inl rfl
  | ctlDel socket cancelled =>
    simp only [call]
    rcases eq_or_ne n socket with rfl | hm
    · exact .inr (Function.update_self ..)
    · exact .inl (Function.update_of_ne hm _ _)
  | _ => exact .inl rfl

/-- A step that does not ask for events of the socket reports nothing of it, or what is asked for. -/
theorem view_step {act : Act} (hs : Sound s) (hk : Keyed s) (ht : s.step act = some t) (hn : act.asks ≠ some n) :
    s.report n act = none ∧ (t.view n = s.view n ∨ t.view n = none) ∨
      ∃ i events, s.view n = some i ∧ s.report n act = some (events, i.data) ∧ events ≠ 0 ∧
        events &&& ~~~i.events = 0 ∧ (t.view n = some i.told ∨ t.view n = none) := by
  obtain ⟨hview, hreport⟩ := view_refines hs hk ht n
  have hcall : act.call s.view n = s.view n ∨ act.call s.view n = none := Act.call_of_asks hn
  have hleft : t.view n = told (s.report n act) (s.view n) ∨ t.view n = none := by
    rcases hview with hview | ⟨hnone, -⟩
    · rcases hcall with hcall | hcall
      · exact .inl (hcall ▸ hview)
      · refine .inr (hview.trans ?_)
        rw [hcall, told, Option.map_none, ite_self]
    · exact .inr hnone
  cases hr : s.report n act with
  | none =>
    rw [hr] at hleft
    exact .inl ⟨rfl, hleft⟩
  | some r =>
    obtain ⟨i, hi, hdata, hne, hasked⟩ := hreport r.1 r.2 hr
    rw [hr, hi] at hleft
    exact .inr ⟨i, r.1, hi, by rw [← hdata], hne, hasked, hleft⟩

/-! ### The runs -/

theorem keyed_init : Keyed init := fun _ _ _ _ _ h => absurd h (by simp [State.entry, init])

theorem sound_keyed_run {acts : List Act} (hrun : Runs init acts s) : Sound s ∧ Keyed s :=
  Run.invariant (I := fun s => Sound s ∧ Keyed s)
    (fun _ _ _ hs ht => ⟨sound_step hs.1 ht, keyed_step hs.1 hs.2 ht⟩) hrun ⟨sound_init, keyed_init⟩

/-- Nothing is reported of a socket that is not in the set. -/
theorem reports_of_view {acts : List Act} (hasked : ∀ r ∈ reports n s acts, ∃ i, s.view n = some i ∧ r.2 = i.data ∧
    r.1 ≠ 0 ∧ r.1 &&& ~~~i.events = 0) (hv : s.view n = none) : reports n s acts = [] := by
  refine List.eq_nil_iff_forall_not_mem.mpr fun r hr => ?_
  obtain ⟨i, hi, -⟩ := hasked r hr
  cases hv.symm.trans hi

/-- While nothing new is asked, each report is of events that were asked for at first. -/
theorem reports_asked {acts : List Act} (hs : Sound s) (hk : Keyed s) (hn : ∀ act ∈ acts, act.asks ≠ some n) :
    ∀ r ∈ reports n s acts, ∃ i, s.view n = some i ∧ r.2 = i.data ∧ r.1 ≠ 0 ∧ r.1 &&& ~~~i.events = 0 := by
  induction acts generalizing s with
  | nil => exact fun r hr => absurd hr List.not_mem_nil
  | cons act acts ih =>
    intro r hr
    unfold reports at hr
    cases ht : s.step act with
    | none =>
      rw [ht, report_none ht] at hr
      exact absurd hr List.not_mem_nil
    | some t =>
      rw [ht, List.mem_append, Option.mem_toList] at hr
      have hnext := ih (sound_step hs ht) (keyed_step hs hk ht) fun act hact => hn act (List.mem_cons_of_mem _ hact)
      rcases view_step hs hk ht (hn act List.mem_cons_self) with
        ⟨hnone, hview⟩ | ⟨i, events, hi, hsome, hne, hasked, hview⟩
      · rcases hr with hr | hr
        · rw [hnone] at hr
          cases hr
        · obtain ⟨j, hj, hrest⟩ := hnext r hr
          rcases hview with hview | hview
          · exact ⟨j, hview.symm.trans hj, hrest⟩
          · rw [hview] at hj
            cases hj
      · rcases hr with hr | hr
        · rw [hsome] at hr
          cases hr
          exact ⟨i, hi, rfl, hne, hasked⟩
        · obtain ⟨j, hj, hdata, hne', hasked'⟩ := hnext r hr
          rcases hview with hview | hview
          · cases hview.symm.trans hj
            unfold Interest.told at hasked'
            by_cases honeshot : i.events &&& epollOneshot ≠ 0
            · rw [if_pos honeshot, and_not_zero] at hasked'
              exact absurd hasked' hne'
            · rw [if_neg honeshot] at hasked'
              exact ⟨i, hi, hdata, hne', hasked'⟩
          · cases hview.symm.trans hj

/-- A one-shot is reported once. -/
theorem reports_once {acts : List Act} (hs : Sound s) (hk : Keyed s) (hn : ∀ act ∈ acts, act.asks ≠ some n)
    (hi : s.view n = some i) (honeshot : i.events &&& epollOneshot ≠ 0) : (reports n s acts).length ≤ 1 := by
  induction acts generalizing s with
  | nil => exact Nat.zero_le 1
  | cons act acts ih =>
    unfold reports
    cases ht : s.step act with
    | none =>
      rw [report_none ht]
      exact Nat.zero_le 1
    | some t =>
      have hst := sound_step hs ht
      have hkt := keyed_step hs hk ht
      have hrest : ∀ act ∈ acts, act.asks ≠ some n := fun act hact => hn act (List.mem_cons_of_mem _ hact)
      have hasked := reports_asked hst hkt hrest
      simp only
      rcases view_step hs hk ht (hn act List.mem_cons_self) with ⟨hnone, hview⟩ | ⟨j, events, hj, hsome, -, -, hview⟩
      · rw [hnone, Option.toList_none, List.nil_append]
        rcases hview with hview | hview
        · exact ih hst hkt hrest (hview.trans hi)
        · rw [reports_of_view hasked hview]
          exact Nat.zero_le 1
      · cases hj.symm.trans hi
        have hnil : reports n t acts = [] := by
          refine List.eq_nil_iff_forall_not_mem.mpr fun r hr => ?_
          obtain ⟨j, hj, -, hne, hzero⟩ := hasked r hr
          rcases hview with hview | hview
          · cases hview.symm.trans hj
            rw [Interest.told, if_pos honeshot, and_not_zero] at hzero
            exact hne hzero
          · cases hview.symm.trans hj
        rw [hsome, hnil]
        exact le_rfl

/-- What `EPOLL_CTL_ADD` and `EPOLL_CTL_MOD` ask for is in the epoll set, unless the socket was closed. -/
theorem view_asked {act : Act} {events : BitVec 32} {data : ℕ} {answers : ℕ → Answer} (hs : Sound s) (hk : Keyed s)
    (hact : s.view n = none ∧ (∃ a, act = .ctlAdd (some a) n events data answers) ∨ act = .ctlMod n events data answers)
    (ht : s.step act = some t) :
    t.view n = some ⟨events ||| epollErr ||| epollHup, data⟩ ∨ t.view n = none := by
  have hquiet : s.report n act = none := by
    rcases hact with ⟨-, a, rfl⟩ | rfl
    · rfl
    · rfl
  have hcall : act.call s.view n = some ⟨events ||| epollErr ||| epollHup, data⟩ ∨ act.call s.view n = none := by
    rcases hact with ⟨hv, a, rfl⟩ | rfl
    · rw [call_ctlAdd hv, Function.update_self]
      exact .inl rfl
    · cases hv : s.view n with
      | none =>
        rw [call_ctlMod_none hv]
        exact .inr hv
      | some i =>
        rw [call_ctlMod hv, Function.update_self]
        exact .inl rfl
  rcases (view_refines hs hk ht n).1 with hview | ⟨hnone, -⟩
  · rw [hquiet] at hview
    exact hcall.imp hview.trans hview.trans
  · exact .inr hnone

/-- After `EPOLL_CTL_ADD` of a socket that is not in the set, or `EPOLL_CTL_MOD`, and until the next of these,
whatever else happens, `epoll_wait` reports of the socket only the data of that call and events that it asked
for (with `EPOLLERR` and `EPOLLHUP`), also where a poll for what was asked before ends late; with `EPOLLONESHOT`
it reports the socket once at most. -/
theorem reports_run {acts acts' : List Act} {act : Act} {events : BitVec 32} {data : ℕ} {answers : ℕ → Answer}
    (hrun : Runs init acts s)
    (hact : s.view n = none ∧ (∃ a, act = .ctlAdd (some a) n events data answers) ∨ act = .ctlMod n events data answers)
    (ht : s.step act = some t) (hn : ∀ act' ∈ acts', act'.asks ≠ some n) :
    (∀ r ∈ reports n t acts', r.2 = data ∧ r.1 ≠ 0 ∧ r.1 &&& ~~~(events ||| epollErr ||| epollHup) = 0) ∧
      (events &&& epollOneshot ≠ 0 → (reports n t acts').length ≤ 1) := by
  obtain ⟨hs, hk⟩ := sound_keyed_run hrun
  have hst := sound_step hs ht
  have hkt := keyed_step hs hk ht
  have hasked := reports_asked hst hkt hn
  rcases view_asked hs hk hact ht with hv | hv
  · refine ⟨fun r hr => ?_, fun honeshot => ?_⟩
    · obtain ⟨i, hi, hrest⟩ := hasked r hr
      cases hv.symm.trans hi
      exact hrest
    · refine reports_once hst hkt hn hv ?_
      exact (or_and_ne_zero _ _ _).mpr (.inl ((or_and_ne_zero _ _ _).mpr (.inl honeshot)))
  · rw [reports_of_view hasked hv]
    exact ⟨fun r hr => absurd hr List.not_mem_nil, fun _ => Nat.zero_le 1⟩

/-- Other events are asked for, once, while the driver polls; the first poll ends late, and the second one is followed
by a third. -/
def replaced : Act := .ctlMod 9 (epollOut ||| epollOneshot) 6 fun _ => ⟨.ok, true⟩

def ending : List Act :=
  [.complete 1 (.events afdPollReceive), .feed 0, .update fun _ => ⟨.ok, true⟩,
    .complete 1 (.events afdPollSend), .feed 0, .update fun _ => ⟨.ok, true⟩,
    .complete 1 (.events afdPollSend), .feed 0]

theorem reports_run_oneshot : ∃ s t, Runs init waiting s ∧ s.step replaced = some t ∧
    reports 9 t ending = [(epollOut, 6)] ∧
    (∀ r ∈ reports 9 t ending, r.2 = 6 ∧ r.1 ≠ 0 ∧
      r.1 &&& ~~~((epollOut ||| epollOneshot) ||| epollErr ||| epollHup) = 0) ∧ (reports 9 t ending).length ≤ 1 := by
  have hreports : ((execFrom step init waiting).bind fun s => (s.step replaced).map fun t => reports 9 t ending) =
      some [(epollOut, 6)] := by decide +kernel
  obtain ⟨s, hs, hreports⟩ := Option.bind_eq_some_iff.mp hreports
  obtain ⟨t, ht, hreports⟩ := Option.map_eq_some_iff.mp hreports
  have hrun : Runs init waiting s := Run.iff_execFrom.mpr hs
  obtain ⟨hasked, hoften⟩ := reports_run hrun (.inr rfl) ht (show ∀ act' ∈ ending, act'.asks ≠ some 9 by decide)
  exact ⟨s, t, hrun, ht, hreports, hasked, hoften (by decide)⟩

/-- The epoll set of a port is empty at first, and in a run each step does to it what `epoll_ctl` is called for and
what the one-shots that are reported leave; besides this a socket leaves it only where the kernel says that it was
closed. Only events that are asked for are reported. -/
theorem view_run {acts : List Act} {act : Act} (hrun : Runs init acts s) (ht : s.step act = some t) (n : ℕ) :
    init.view n = none ∧
      (t.view n = told (s.report n act) (act.call s.view n) ∨
        t.view n = none ∧ ∃ a, s.closes t act a ∧ (s.portFindSocket n = some a ∨ act.Adds a n)) ∧
      ∀ events data, s.report n act = some (events, data) →
        ∃ i, s.view n = some i ∧ data = i.data ∧ events ≠ 0 ∧ events &&& ~~~i.events = 0 := by
  obtain ⟨hs, hk⟩ := sound_keyed_run hrun
  exact ⟨view_of_not_found rfl, view_refines hs hk ht n⟩

theorem view_run_replaced : ∃ s t, Runs init waiting s ∧ s.step replaced = some t ∧
    (t.view 9).map Interest.data = some 6 ∧
    (t.view 9 = told (s.report 9 replaced) (replaced.call s.view 9) ∨
      t.view 9 = none ∧ ∃ a, s.closes t replaced a ∧ (s.portFindSocket 9 = some a ∨ replaced.Adds a 9)) := by
  have hview : ((execFrom step init waiting).bind fun s => (s.step replaced).map fun t =>
      (t.view 9).map Interest.data) = some (some 6) := by decide +kernel
  obtain ⟨s, hs, hview⟩ := Option.bind_eq_some_iff.mp hview
  obtain ⟨t, ht, hview⟩ := Option.map_eq_some_iff.mp hview
  have hrun : Runs init waiting s := Run.iff_execFrom.mpr hs
  exact ⟨s, t, hrun, ht, hview, (view_run hrun ht 9).2.1⟩

end Socks
end Wepoll
end Qev
