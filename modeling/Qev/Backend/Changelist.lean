/-
# The changelist of kqueue

`kqueue_modify` queues changes, and the kernel takes all of them, in order, at the next `kevent`. A change fails if
its fd is closed, or if there is no filter to delete; and a filter may be refused. Such errors come back as events,
unless `kevent` was interrupted, and `kqueue_poll` then makes the requests of the fd again, or kills the fd.

For each filter of an fd the last change that is queued decides (`verdict`), whatever the kernel had before, so a
changelist that is taken once more changes nothing (`kevent_twice`).
-/
import Qev.Backend.Registration
import Qev.Backend.EmbedPrepare

namespace Qev
namespace Kqueue

open Lib

variable {U T : Type} [DecidableEq U]

/-! ### The kernel -/

/-- The filters of each fd. -/
abbrev Filters := ℕ → Filter → Bool

def Filters.set (F : Filters) (fd : ℕ) (f : Filter) (b : Bool) : Filters :=
  Function.update F fd (Function.update (F fd) f b)

/-- What `kevent` makes of a changelist, and the errors: `EBADF` for a closed fd, `ENOENT` for a filter that is not
there. `refused n` is why the change that has `n` behind it cannot be added, and `valid` what `fd_valid` will say. -/
def kevent (isOpen valid : ℕ → Bool) (refused : ℕ → Option Error) : List Change → Filters → Filters × List Kevent
  | [], F => (F, [])
  | c :: cs, F =>
    if !isOpen c.fd then
      let r := kevent isOpen valid refused cs F
      (r.1, .error c.fd (.ebadf (valid c.fd)) :: r.2)
    else if c.add && (refused cs.length).isNone || !c.add && F c.fd c.filter then
      kevent isOpen valid refused cs (F.set c.fd c.filter c.add)
    else
      let r := kevent isOpen valid refused cs F
      (r.1, .error c.fd (if c.add then (refused cs.length).getD .enoent else .enoent) :: r.2)

/-! ### The loop and the kernel -/

/-- `unsaid` is history: the fds that have not come to `kqueue_modify` since they were opened with no change of
theirs queued, or since `kqueue_poll` gave them up. -/
structure System (U T : Type) where
  loop : Loop U T Kernel
  isOpen : ℕ → Bool
  filters : Filters
  unsaid : ℕ → Bool

/-- What happens between two calls of `kevent`, and these: `interrupted` all changes are taken and nothing is
reported, `answered` the errors are reported and then events; meanwhile fds may be opened. -/
inductive Act (U T : Type)
  | opens (fd : ℕ)
  | closes (fd : ℕ)
  | reify (fd : ℕ)
  /-- Watchers are started, stopped and set, and whatever else is done to the loop. -/
  | watchers (m : Loop U T Kernel)
  | interrupted
  | answered (refused : ℕ → Option Error) (opened : List ℕ) (evs : List (ℕ × Filter))

variable (s : System U T)

namespace System

/-- A new file has no filters. -/
def opens (fd : ℕ) : System U T :=
  if s.isOpen fd then s
  else
    { s with
      isOpen := Function.update s.isOpen fd true
      unsaid := Function.update s.unsaid fd (s.unsaid fd || !s.loop.kernel.changes.any fun c => c.fd = fd) }

/-- The filters of an fd that is closed are gone. -/
def closes (fd : ℕ) : System U T :=
  { s with isOpen := Function.update s.isOpen fd false
           filters := Function.update s.filters fd fun _ => false }

/-- `fd_reify` comes to an fd. -/
def reify (fd : ℕ) : System U T :=
  { s with loop := s.loop.fdReifyOne Loop.kqueueModify fd
           unsaid := if (s.loop.fds.change fd).isSome then Function.update s.unsaid fd false else s.unsaid }

/-- The loop with other watchers. `fd_reify` alone writes the events of an fd. -/
def watchers (m : Loop U T Kernel) : System U T :=
  { s with loop := { m with
      kernel := s.loop.kernel
      fds := { m.fds with
        anfds := fun fd => { m.fds.anfds fd with events := (s.loop.fds.anfds fd).events }
        anfdmax := max s.loop.fds.anfdmax m.fds.anfdmax } } }

/-- `kqueue_poll`, when `kevent` takes the changes and is interrupted. -/
def interrupted : System U T :=
  { s with loop := s.loop.kqueuePoll none
           filters := (kevent s.isOpen s.isOpen (fun _ => none) s.loop.kernel.changes s.filters).1 }

/-- An error for an fd that is of interest makes `kqueue_poll` call `kqueue_modify`, or give up the fd. -/
def heard (l : Loop U T Kernel) (unsaid : ℕ → Bool) : Kevent → ℕ → Bool
  | .event _ _ => unsaid
  | .error fd err =>
    if fd < l.fds.anfdmax ∧ (l.fds.anfds fd).events ≠ 0 then Function.update unsaid fd err.fatal else unsaid

/-- `kqueue_poll` comes to an event. -/
def event (ev : Kevent) : System U T :=
  { s with loop := s.loop.kqueueEvent ev, unsaid := heard s.loop s.unsaid ev }

/-- `kevent` takes the changes, and afterwards the fds of `opened` are opened. -/
def taken (refused : ℕ → Option Error) (opened : List ℕ) : Filters × List Kevent :=
  kevent s.isOpen (opened.foldl opens s).isOpen refused s.loop.kernel.changes s.filters

/-- `kqueue_poll`, when `kevent` answers with the errors and `evs`. -/
def answered (refused : ℕ → Option Error) (opened : List ℕ) (evs : List (ℕ × Filter)) : System U T :=
  let (filters, errors) := s.taken refused opened
  let t := { s with
    filters := filters
    loop := { s.loop with kernel := ⟨[], s.loop.kernel.taken ++ s.loop.kernel.changes⟩ } }
  (errors ++ evs.map fun ev => Kevent.event ev.1 ev.2).foldl event (opened.foldl opens t)

end System

/-- `fd_reify` has fds that `anfds` has room for. -/
def step (s : System U T) : Act U T → Option (System U T)
  | .opens fd => some (s.opens fd)
  | .closes fd => some (s.closes fd)
  | .reify fd => if fd < s.loop.fds.anfdmax then some (s.reify fd) else none
  | .watchers m => some (s.watchers m)
  | .interrupted => some s.interrupted
  | .answered refused opened evs => some (s.answered refused opened evs)

abbrev Runs (s : System U T) (acts : List (Act U T)) (t : System U T) : Prop :=
  Run (fun s a t => step s a = some t) s acts t

/-- After `kqueue_init`. -/
def init [Inhabited U] [Zero T] : System U T where
  loop := Loop.init .kqueue true false true ⟨[], []⟩
  isOpen := fun _ => false
  filters := fun _ _ => false
  unsaid := fun _ => false

/-- A mask has a filter. -/
def has (m : BitVec 8) : Filter → Bool
  | .read => decide (m &&& Epoll.readBit ≠ 0)
  | .write => decide (m &&& Epoll.writeBit ≠ 0)

/-- The mask that was last submitted for an fd has the filter. -/
def wants (l : Loop U T Kernel) (fd : ℕ) (f : Filter) : Bool := has (l.fds.anfds fd).events f

/-! ### What a changelist comes to -/

/-- Whether the last of the changes of a filter adds it. -/
def verdict (fd : ℕ) (f : Filter) : List Change → Option Bool
  | [] => none
  | c :: cs => (verdict fd f cs).or (if c.fd = fd ∧ c.filter = f then some c.add else none)

theorem verdict_append (fd : ℕ) (f : Filter) (cs ds : List Change) :
    verdict fd f (cs ++ ds) = (verdict fd f ds).or (verdict fd f cs) := by
  induction cs with
  | nil => exact (Option.or_none).symm
  | cons c cs ih =>
    show (verdict fd f (cs ++ ds)).or _ = _
    rw [ih, Option.or_assoc]
    rfl

section

variable {isOpen valid : ℕ → Bool} {refused : ℕ → Option Error}
variable {cs : List Change} {F : Filters} {fd : ℕ} {f : Filter}

theorem filters_set (F : Filters) (fd : ℕ) (f : Filter) (b : Bool) (fd' : ℕ) (f' : Filter) :
    F.set fd f b fd' f' = if fd = fd' ∧ f = f' then b else F fd' f' := by
  unfold Filters.set
  by_cases hfd : fd' = fd
  · subst hfd
    rw [Function.update_self, Function.update_apply]
    by_cases hf : f' = f
    · rw [if_pos hf, if_pos ⟨rfl, hf.symm⟩]
    · rw [if_neg hf, if_neg fun hc => hf hc.2.symm]
  · rw [Function.update_of_ne hfd, if_neg fun hc => hfd hc.1.symm]

/-- The changes of one filter make the difference, and those of a closed fd none. -/
theorem kevent_eq (h : isOpen fd = false ∨ verdict fd f cs = none) :
    (kevent isOpen valid refused cs F).1 fd f = F fd f := by
  induction cs generalizing F with
  | nil => rfl
  | cons c cs ih =>
    have hrest : isOpen fd = false ∨ verdict fd f cs = none := h.imp_right fun hv => (Option.or_eq_none_iff.mp hv).1
    unfold kevent
    split
    · exact ih hrest
    · rename_i hopen
      split
      · rw [ih hrest, filters_set, if_neg]
        rintro ⟨rfl, rfl⟩
        rcases h with h | h
        · rw [h] at hopen
          exact hopen rfl
        · have := (Option.or_eq_none_iff.mp h).2
          rw [if_pos ⟨rfl, rfl⟩] at this
          cases this
      · exact ih hrest

/-- A filter whose last change deletes it is gone. -/
theorem kevent_deleted (hopen : isOpen fd = true) (h : verdict fd f cs = some false) :
    (kevent isOpen valid refused cs F).1 fd f = false := by
  induction cs generalizing F with
  | nil => cases h
  | cons c cs ih =>
    rcases Option.or_eq_some_iff.mp h with h | ⟨hnone, h⟩
    · unfold kevent
      split
      · exact ih h
      · split
        · exact ih h
        · exact ih h
    · rw [Option.ite_none_right_eq_some] at h
      obtain ⟨⟨rfl, rfl⟩, hadd⟩ := h
      have hadd := Option.some.inj hadd
      unfold kevent
      rw [hopen, if_neg (by simp), hadd]
      split
      · rw [kevent_eq (.inr hnone), filters_set, if_pos ⟨rfl, rfl⟩]
      · rename_i habsent
        rw [kevent_eq (.inr hnone)]
        simpa using habsent

/-- One whose last change adds it is there, unless it was refused. -/
theorem kevent_added (hopen : isOpen fd = true) (h : verdict fd f cs = some true) :
    (kevent isOpen valid refused cs F).1 fd f = true ∨
      ∃ err, .error fd err ∈ (kevent isOpen valid refused cs F).2 ∧ ∃ n, refused n = some err := by
  induction cs generalizing F with
  | nil => cases h
  | cons c cs ih =>
    rcases Option.or_eq_some_iff.mp h with h | ⟨hnone, h⟩
    · unfold kevent
      split
      · exact (ih h).imp_right (Exists.imp fun _ => And.imp_left (List.mem_cons_of_mem _))
      · split
        · exact ih h
        · exact (ih h).imp_right (Exists.imp fun _ => And.imp_left (List.mem_cons_of_mem _))
    · rw [Option.ite_none_right_eq_some] at h
      obtain ⟨⟨rfl, rfl⟩, hadd⟩ := h
      have hadd := Option.some.inj hadd
      unfold kevent
      rw [hopen, if_neg (by simp), hadd]
      split
      · left
        rw [kevent_eq (.inr hnone), filters_set, if_pos ⟨rfl, rfl⟩]
      · rename_i hrefused
        right
        cases hr : refused cs.length with
        | none =>
          rw [hr] at hrefused
          exact absurd rfl hrefused
        | some err => exact ⟨err, List.mem_cons_self, cs.length, hr⟩

/-- Where nothing is refused, the last change of a filter decides. -/
theorem kevent_verdict (hopen : isOpen fd = true) :
    (kevent isOpen valid (fun _ => none) cs F).1 fd f = (verdict fd f cs).getD (F fd f) := by
  cases hv : verdict fd f cs with
  | none => exact kevent_eq (.inr hv)
  | some b =>
    cases b with
    | false => exact kevent_deleted hopen hv
    | true =>
      refine (kevent_added hopen hv).resolve_right fun hc => ?_
      obtain ⟨err, -, n, hn⟩ := hc
      cases hn

/-- The same changelist once more changes nothing. -/
theorem kevent_twice : (kevent isOpen valid (fun _ => none) cs
    (kevent isOpen valid (fun _ => none) cs F).1).1 = (kevent isOpen valid (fun _ => none) cs F).1 := by
  funext fd f
  cases hopen : isOpen fd with
  | false => exact kevent_eq (.inl hopen)
  | true =>
    rw [kevent_verdict hopen, kevent_verdict hopen]
    cases verdict fd f cs with
    | none => rfl
    | some b => rfl

end

/-! ### kqueue_modify -/

/-- What `kqueue_modify` queues. -/
def modification (fd : ℕ) (oev nev : BitVec 8) : List Change :=
  (if oev ≠ nev ∧ oev &&& Epoll.readBit ≠ 0 then [⟨fd, .read, false⟩] else []) ++
  (if oev ≠ nev ∧ oev &&& Epoll.writeBit ≠ 0 then [⟨fd, .write, false⟩] else []) ++
  (if nev &&& Epoll.readBit ≠ 0 then [⟨fd, .read, true⟩] else []) ++
  if nev &&& Epoll.writeBit ≠ 0 then [⟨fd, .write, true⟩] else []

section

omit [DecidableEq U]

theorem kqueueModify_eq (fd : ℕ) (oev nev : BitVec 8) (l : Loop U T Kernel) : l.kqueueModify fd oev nev =
    { l with kernel := { l.kernel with changes := l.kernel.changes ++ modification fd oev nev } } := by
  have hone : ∀ (c : Prop) [Decidable c] (l : Loop U T Kernel) (f : Filter) (add : Bool),
      (if c then l.kqueueChange fd f add else l) =
        { l with kernel := { l.kernel with changes := l.kernel.changes ++ if c then [⟨fd, f, add⟩] else [] } } := by
    intro c _ l f add
    split
    · rfl
    · rw [List.append_nil]
  unfold Loop.kqueueModify modification
  dsimp only
  rw [hone, hone, hone, hone]
  simp only [List.append_assoc]

end

theorem verdict_modification (fd : ℕ) (oev nev : BitVec 8) (fd' : ℕ) (f : Filter) :
    verdict fd' f (modification fd oev nev) =
      if fd = fd' then
        if has nev f then some true else if oev ≠ nev ∧ has oev f then some false else none
      else none := by
  unfold modification
  simp only [verdict_append]
  have hone : ∀ (c : Prop) [Decidable c] (f' : Filter) (add : Bool),
      verdict fd' f (if c then [⟨fd, f', add⟩] else []) = if c ∧ fd = fd' ∧ f' = f then some add else none := by
    intro c _ f' add
    by_cases hc : c
    · rw [if_pos hc]
      simp [verdict, hc]
    · rw [if_neg hc, if_neg fun h => hc h.1]
      rfl
  simp only [hone]
  by_cases hfd : fd = fd'
  · cases f with
    | read =>
      simp only [has, hfd, reduceCtorEq, and_true, and_false, ↓reduceIte, Option.none_or, decide_eq_true_eq]
      split
      · rfl
      · rfl
    | write =>
      simp only [has, hfd, reduceCtorEq, and_true, and_false, ↓reduceIte, Option.none_or, Option.or_none,
        decide_eq_true_eq]
      split
      · rfl
      · rfl
  · simp [hfd]

theorem mem_modification {fd : ℕ} {oev nev : BitVec 8} {c : Change} (h : c ∈ modification fd oev nev) :
    c.fd = fd := by
  have hone : ∀ (p : Prop) [Decidable p] (f : Filter) (add : Bool),
      c ∈ (if p then [(⟨fd, f, add⟩ : Change)] else []) → c.fd = fd := by
    intro p _ f add hm
    split at hm
    · rw [List.mem_singleton.mp hm]
    · cases hm
  unfold modification at h
  rcases List.mem_append.mp h with h | h
  · rcases List.mem_append.mp h with h | h
    · rcases List.mem_append.mp h with h | h
      · exact hone _ _ _ h
      · exact hone _ _ _ h
    · exact hone _ _ _ h
  · exact hone _ _ _ h

end Kqueue
end Qev
