/-
# The pending queues

One stack of pending events for each priority. A watcher stores its place in the
stack of its priority in `pending`, counted from 1, so that an event fed to a
pending watcher is added to its entry, and a watcher that is stopped leaves its
entry to the dummy `pending_w`.

`Pend.Ok` says that the two agree: a watcher points at an entry exactly when the
entry names it, and every other entry is the dummy's.
-/
import Mathlib

namespace Qev

/-- `EV_MINPRI`. -/
def minpri : ℤ := -2

/-- `EV_MAXPRI`. -/
def maxpri : ℤ := 2

/-- `NUMPRI`. -/
def numpri : ℕ := (maxpri - minpri + 1).toNat

/-- Event bits, an `int` in the source. -/
abbrev Events := BitVec 32

/-- An entry of a stack. `stamp` is history: how many entries were made before this one. -/
structure ANPENDING (W : Type) where
  w : W
  events : Events
  stamp : ℕ

/-- The stacks, the cursor of `ev_invoke_pending`, and the watchers' `pending` and `priority`.
`rfeeds` has the newest first. `clock` is history: the number of entries made. -/
structure Pend (W : Type) where
  pendingW : W
  pendings : ℕ → ℕ → ANPENDING W
  pendingcnt : ℕ → ℕ
  pendingpri : ℕ
  pending : W → ℕ
  priority : W → ℤ
  rfeeds : List W
  clock : ℕ

namespace Pend

variable {W : Type} [DecidableEq W] (p : Pend W)

/-- `ABSPRI`. -/
def abspri (w : W) : ℕ := (p.priority w - minpri).toNat

/-- The entry at `i` of the stack `pri`. -/
def entry (pri i : ℕ) : ANPENDING W := p.pendings pri i

def setEntry (pri i : ℕ) (e : ANPENDING W) : Pend W :=
  { p with pendings := Function.update p.pendings pri (Function.update (p.pendings pri) i e) }

def setPending (w : W) (n : ℕ) : Pend W := { p with pending := Function.update p.pending w n }

def setCnt (pri n : ℕ) : Pend W := { p with pendingcnt := Function.update p.pendingcnt pri n }

def evFeedEvent (w : W) (revents : Events) : Pend W :=
  let pri := p.abspri w
  let p :=
    if p.pending w ≠ 0 then
      let e := p.entry pri (p.pending w - 1)
      p.setEntry pri (p.pending w - 1) { e with events := e.events ||| revents }
    else
      let n := p.pendingcnt pri + 1
      { ((p.setCnt pri n).setPending w n).setEntry pri (n - 1) ⟨w, revents, p.clock⟩ with
        clock := p.clock + 1 }
  { p with pendingpri := numpri - 1 }

def feedReverse (w : W) : Pend W := { p with rfeeds := w :: p.rfeeds }

/-- The watchers of `rfeeds` are fed, newest first. -/
def feedReverseDone (revents : Events) : Pend W :=
  { p.rfeeds.foldl (fun p w => p.evFeedEvent w revents) p with rfeeds := [] }

def queueEvents (events : List W) (type : Events) : Pend W :=
  events.foldl (fun p w => p.evFeedEvent w type) p

/-- `clear_pending`, and what `ev_clear_pending` does to the queues. -/
def clearPending (w : W) : Pend W :=
  if p.pending w ≠ 0 then
    let e := p.entry (p.abspri w) (p.pending w - 1)
    (p.setEntry (p.abspri w) (p.pending w - 1) { e with w := p.pendingW }).setPending w 0
  else p

/-- What `ev_clear_pending` returns. -/
def pendingEvents (w : W) : Events :=
  if p.pending w ≠ 0 then (p.entry (p.abspri w) (p.pending w - 1)).events else 0

def setPriority (w : W) (pri : ℤ) : Pend W := { p with priority := Function.update p.priority w pri }

/-- `pri_adjust`. -/
def priAdjust (w : W) : Pend W :=
  let pri := p.priority w
  let pri := if pri < minpri then minpri else pri
  let pri := if pri > maxpri then maxpri else pri
  p.setPriority w pri

/-! ### Small facts -/

variable {p}

section

omit [DecidableEq W]

theorem entry_setEntry (pri i pri' i' : ℕ) (e : ANPENDING W) :
    (p.setEntry pri i e).entry pri' i' = if pri' = pri ∧ i' = i then e else p.entry pri' i' := by
  unfold setEntry entry
  by_cases hp : pri' = pri
  · subst hp
    by_cases hi : i' = i
    · simp [hi]
    · simp [hi]
  · simp [hp]

end

@[simp] theorem entry_setPending (w : W) (n pri i : ℕ) :
    (p.setPending w n).entry pri i = p.entry pri i := rfl

section

omit [DecidableEq W]

@[simp] theorem entry_setCnt (q n pri i : ℕ) : (p.setCnt q n).entry pri i = p.entry pri i := rfl

@[simp] theorem pending_setEntry (pri i : ℕ) (e : ANPENDING W) :
    (p.setEntry pri i e).pending = p.pending := rfl

@[simp] theorem pendingcnt_setEntry (pri i : ℕ) (e : ANPENDING W) :
    (p.setEntry pri i e).pendingcnt = p.pendingcnt := rfl

@[simp] theorem priority_setEntry (pri i : ℕ) (e : ANPENDING W) :
    (p.setEntry pri i e).priority = p.priority := rfl

/-- Every priority is in range. -/
def InRange (p : Pend W) : Prop := ∀ w, minpri ≤ p.priority w ∧ p.priority w ≤ maxpri

theorem InRange.abspri_lt (h : p.InRange) (w : W) : p.abspri w < numpri := by
  have h₁ := h w
  unfold abspri numpri
  unfold minpri maxpri at *
  omega

end

theorem priAdjust_clamped {w : W} (hw : minpri ≤ p.priority w ∧ p.priority w ≤ maxpri) : p.priAdjust w = p := by
  unfold priAdjust
  simp only [not_lt.mpr hw.1, ↓reduceIte, gt_iff_lt, not_lt.mpr hw.2, setPriority, Function.update_eq_self]

theorem InRange.priAdjust (h : p.InRange) (w : W) : p.priAdjust w = p := priAdjust_clamped (h w)

theorem clamped_priAdjust (p : Pend W) (w : W) :
    minpri ≤ (p.priAdjust w).priority w ∧ (p.priAdjust w).priority w ≤ maxpri := by
  unfold Pend.priAdjust setPriority
  dsimp only
  rw [Function.update_self]
  unfold minpri maxpri
  split <;> split <;> omega

/-! ### The watchers and the queues agree -/

/-- Everything in `l` at once. -/
def orAll (l : List Events) : Events := l.foldr (· ||| ·) 0

/-- `fed w` is what was fed to `w` since it was last invoked or cleared, newest first. -/
structure Ok (p : Pend W) (fed : W → List Events) : Prop where
  range : p.InRange
  dummy : p.pending p.pendingW = 0
  top : ∀ pri, numpri ≤ pri → p.pendingcnt pri = 0
  live : ∀ pri i, i < p.pendingcnt pri → (p.entry pri i).w ≠ p.pendingW →
    pri = p.abspri (p.entry pri i).w ∧ p.pending (p.entry pri i).w = i + 1
  held : ∀ w, p.pending w ≠ 0 → p.pending w ≤ p.pendingcnt (p.abspri w) ∧
    (p.entry (p.abspri w) (p.pending w - 1)).w = w
  queued : ∀ w, p.pending w ≠ 0 ↔ fed w ≠ []
  events : ∀ w, p.pending w ≠ 0 → (p.entry (p.abspri w) (p.pending w - 1)).events = orAll (fed w)
  stamps : ∀ pri i j, i < j → j < p.pendingcnt pri → (p.entry pri i).stamp < (p.entry pri j).stamp
  clock : ∀ pri i, i < p.pendingcnt pri → (p.entry pri i).stamp < p.clock

section

omit [DecidableEq W]

/-- `w.pending` is `n` exactly when the entry before place `n` of its queue names it. -/
theorem Ok.pending_iff {fed : W → List Events} (h : p.Ok fed) {w : W} (hw : w ≠ p.pendingW) {n : ℕ}
    (hn : 0 < n) :
    p.pending w = n ↔ n ≤ p.pendingcnt (p.abspri w) ∧ (p.entry (p.abspri w) (n - 1)).w = w := by
  constructor
  · rintro rfl
    exact h.held w (by omega)
  · rintro ⟨hle, he⟩
    obtain ⟨-, hp⟩ := h.live (p.abspri w) (n - 1) (by omega) (by rw [he]; exact hw)
    rw [he] at hp
    omega

theorem Ok.top_unique {fed : W → List Events} (h : p.Ok fed) {pri i pri' i' : ℕ}
    (hi : i < p.pendingcnt pri) (hi' : i' < p.pendingcnt pri') (hw : (p.entry pri i).w ≠ p.pendingW)
    (he : (p.entry pri i).w = (p.entry pri' i').w) : pri = pri' ∧ i = i' := by
  obtain ⟨h₁, h₂⟩ := h.live pri i hi hw
  obtain ⟨h₃, h₄⟩ := h.live pri' i' hi' (he ▸ hw)
  rw [he] at h₁ h₂
  exact ⟨h₁.trans h₃.symm, by omega⟩

end

/-! ### What feeding, clearing and taking an entry do -/

variable {fed : W → List Events} {w : W}

variable {r : Pend W} {pri n : ℕ}

section

omit [DecidableEq W]

theorem abspri_congr (h : r.priority = p.priority) (w : W) : r.abspri w = p.abspri w := by
  unfold abspri
  rw [h]

end

/-- A new entry on top of the stack of `w`. -/
theorem Ok.push (h : p.Ok fed) (hw : w ≠ p.pendingW) (hp : p.pending w = 0) (revents : Events)
    (hW : r.pendingW = p.pendingW) (hprio : r.priority = p.priority) (hpri : pri = p.abspri w)
    (hn : n = p.pendingcnt pri) (hcnt : r.pendingcnt = Function.update p.pendingcnt pri (n + 1))
    (hpend : r.pending = Function.update p.pending w (n + 1))
    (hent : ∀ q i, r.entry q i = if q = pri ∧ i = n then ⟨w, revents, p.clock⟩ else p.entry q i)
    (hclock : r.clock = p.clock + 1) : r.Ok (Function.update fed w (revents :: fed w)) := by
  have habs := abspri_congr hprio
  have hlt : pri < numpri := hpri ▸ h.range.abspri_lt w
  have hfed : fed w = [] := by
    by_contra hne
    exact (h.queued w).mpr hne hp
  have hold : ∀ w', w' ≠ w → r.pending w' = p.pending w' := fun w' hne => by
    rw [hpend, Function.update_of_ne hne]
  have hnew : r.pending w = n + 1 := by rw [hpend, Function.update_self]
  have hcnt' : ∀ q, r.pendingcnt q = if q = pri then n + 1 else p.pendingcnt q := fun q => by
    rw [hcnt, Function.update_apply]
  -- the entry of another pending watcher is an old one
  have hother : ∀ w', p.pending w' ≠ 0 →
      r.entry (p.abspri w') (p.pending w' - 1) = p.entry (p.abspri w') (p.pending w' - 1) := by
    intro w' hp'
    have hle := (h.held w' hp').1
    rw [hent, if_neg]
    rintro ⟨h₁, h₂⟩
    rw [h₁] at hle
    omega
  refine ⟨by unfold InRange; rw [hprio]; exact h.range, ?_, ?_, ?_, ?_, ?_, ?_, ?_, ?_⟩
  · rw [hW, hold _ hw.symm]
    exact h.dummy
  · intro q hq
    rw [hcnt', if_neg (by omega)]
    exact h.top q hq
  · intro q i hi hne
    rw [hent] at hne ⊢
    rw [hcnt'] at hi
    by_cases hqi : q = pri ∧ i = n
    · rw [if_pos hqi, habs, hqi.1, hqi.2]
      exact ⟨hpri, hnew⟩
    · rw [if_neg hqi] at hne ⊢
      rw [hW] at hne
      have hi' : i < p.pendingcnt q := by
        split at hi
        · rename_i heq
          subst heq
          have : i ≠ n := fun he => hqi ⟨rfl, he⟩
          omega
        · exact hi
      obtain ⟨h₁, h₂⟩ := h.live q i hi' hne
      refine ⟨by rw [habs]; exact h₁, ?_⟩
      rw [hold _ (fun he => by rw [he, hp] at h₂; omega), h₂]
  · intro w' hp'
    rw [habs]
    by_cases hww : w' = w
    · subst hww
      rw [hnew, hcnt', if_pos hpri.symm, hent, if_pos ⟨hpri.symm, rfl⟩]
      exact ⟨le_refl _, rfl⟩
    · rw [hold _ hww] at hp' ⊢
      obtain ⟨h₁, h₂⟩ := h.held w' hp'
      rw [hother w' hp', hcnt']
      refine ⟨?_, h₂⟩
      split
      · rename_i heq
        rw [heq] at h₁
        omega
      · exact h₁
  · intro w'
    by_cases hww : w' = w
    · subst hww
      simp [hnew]
    · rw [hold _ hww, Function.update_of_ne hww]
      exact h.queued w'
  · intro w' hp'
    rw [habs]
    by_cases hww : w' = w
    · subst hww
      rw [hnew, hent, if_pos ⟨hpri.symm, rfl⟩, Function.update_self, hfed]
      simp [orAll]
    · rw [hold _ hww] at hp' ⊢
      rw [hother w' hp', Function.update_of_ne hww]
      exact h.events w' hp'
  · intro q i j hij hj
    rw [hcnt'] at hj
    rw [hent q i, hent q j]
    by_cases hqp : q = pri
    · subst hqp
      rw [if_pos rfl] at hj
      rw [if_neg (fun hc => by omega)]
      split
      · rw [hn] at hj
        exact h.clock q i (by omega)
      · rename_i hne
        exact h.stamps q i j hij (by have : j ≠ n := fun he => hne ⟨rfl, he⟩; omega)
    · rw [if_neg hqp] at hj
      rw [if_neg (fun hc => hqp hc.1), if_neg (fun hc => hqp hc.1)]
      exact h.stamps q i j hij hj
  · intro q i hi
    rw [hcnt'] at hi
    rw [hent, hclock]
    split
    · exact Nat.lt_succ_self _
    · rename_i hne
      refine Nat.lt_succ_of_lt (h.clock q i ?_)
      split at hi
      · rename_i heq
        have : i ≠ n := fun he => hne ⟨heq, he⟩
        rw [heq]
        omega
      · exact hi

section

omit [DecidableEq W]

/-- Entries keep their owner and stamp; those of pending watchers have the events they should. -/
theorem Ok.reevent {fed' : W → List Events} (h : p.Ok fed) (hW : r.pendingW = p.pendingW)
    (hprio : r.priority = p.priority) (hcnt : r.pendingcnt = p.pendingcnt)
    (hpend : r.pending = p.pending) (hclock : r.clock = p.clock)
    (hent : ∀ q i, (r.entry q i).w = (p.entry q i).w ∧ (r.entry q i).stamp = (p.entry q i).stamp)
    (hfed : ∀ w, fed' w ≠ [] ↔ fed w ≠ [])
    (hev : ∀ w, p.pending w ≠ 0 → (r.entry (p.abspri w) (p.pending w - 1)).events = orAll (fed' w)) :
    r.Ok fed' := by
  have habs := abspri_congr hprio
  refine ⟨by unfold InRange; rw [hprio]; exact h.range, by rw [hW, hpend]; exact h.dummy, ?_, ?_, ?_, ?_,
    ?_, ?_, ?_⟩
  · intro q hq
    rw [hcnt]
    exact h.top q hq
  · intro q i hi hne
    rw [hcnt] at hi
    rw [hW, (hent q i).1] at hne
    rw [(hent q i).1, habs, hpend]
    exact h.live q i hi hne
  · intro w hp
    rw [hpend] at hp
    rw [habs, hpend, hcnt, (hent _ _).1]
    exact h.held w hp
  · intro w
    rw [hpend, hfed]
    exact h.queued w
  · intro w hp
    rw [hpend] at hp
    rw [habs, hpend]
    exact hev w hp
  · intro q i j hij hj
    rw [hcnt] at hj
    rw [(hent q i).2, (hent q j).2]
    exact h.stamps q i j hij hj
  · intro q i hi
    rw [hcnt] at hi
    rw [(hent q i).2, hclock]
    exact h.clock q i hi

end

theorem ok_feed (h : p.Ok fed) (hw : w ≠ p.pendingW) (revents : Events) :
    (p.evFeedEvent w revents).Ok (Function.update fed w (revents :: fed w)) := by
  unfold evFeedEvent
  by_cases hp : p.pending w = 0
  · simp only [hp, ne_eq, not_true_eq_false, ↓reduceIte, Nat.add_sub_cancel]
    exact h.push hw hp revents rfl rfl rfl rfl rfl rfl (fun q i => entry_setEntry ..) rfl
  · simp only [hp, ne_eq, not_false_eq_true, ↓reduceIte]
    have hent : ∀ q i, (p.setEntry (p.abspri w) (p.pending w - 1)
        { p.entry (p.abspri w) (p.pending w - 1) with
          events := (p.entry (p.abspri w) (p.pending w - 1)).events ||| revents }).entry q i =
        if q = p.abspri w ∧ i = p.pending w - 1 then { p.entry (p.abspri w) (p.pending w - 1) with
          events := (p.entry (p.abspri w) (p.pending w - 1)).events ||| revents }
        else p.entry q i := fun q i => entry_setEntry ..
    refine h.reevent (r := { (p.setEntry _ _ _) with pendingpri := numpri - 1 }) rfl rfl rfl rfl rfl
      (fun q i => ?_) (fun w' => ?_) (fun w' hp' => ?_)
    · rw [show Pend.entry { (p.setEntry _ _ _) with pendingpri := numpri - 1 } q i = _ from hent q i]
      split
      · rename_i heq
        rw [heq.1, heq.2]
        exact ⟨rfl, rfl⟩
      · exact ⟨rfl, rfl⟩
    · by_cases hww : w' = w
      · subst hww
        simpa using (h.queued w').mp hp
      · rw [Function.update_of_ne hww]
    · rw [show Pend.entry { (p.setEntry _ _ _) with pendingpri := numpri - 1 } _ _ = _ from hent _ _]
      by_cases hww : w' = w
      · subst hww
        rw [if_pos ⟨rfl, rfl⟩, Function.update_self]
        simp only [orAll, List.foldr_cons]
        rw [h.events w' hp, BitVec.or_comm]
        rfl
      · rw [Function.update_of_ne hww, if_neg]
        · exact h.events w' hp'
        · rintro ⟨h₁, h₂⟩
          refine hww ?_
          rw [← (h.held w' hp').2, ← (h.held w hp).2, h₁, h₂]

/-- The entry of `w` goes to the dummy. -/
theorem Ok.blank {e : ANPENDING W} (h : p.Ok fed) (hp : p.pending w ≠ 0) (hpri : pri = p.abspri w)
    (hn : n = p.pending w - 1) (hW : r.pendingW = p.pendingW) (hprio : r.priority = p.priority)
    (hcnt : r.pendingcnt = p.pendingcnt) (hpend : r.pending = Function.update p.pending w 0)
    (hent : ∀ q i, r.entry q i = if q = pri ∧ i = n then e else p.entry q i) (he : e.w = p.pendingW)
    (hes : e.stamp = (p.entry pri n).stamp) (hclock : r.clock = p.clock) :
    r.Ok (Function.update fed w []) := by
  subst hpri hn
  have habs := abspri_congr hprio
  obtain ⟨hle, hw⟩ := h.held w hp
  have hold : ∀ w', w' ≠ w → r.pending w' = p.pending w' := fun w' hne => by
    rw [hpend, Function.update_of_ne hne]
  have hself : r.pending w = 0 := by rw [hpend, Function.update_self]
  have hne : ∀ w', r.pending w' ≠ 0 → w' ≠ w := by
    rintro w' hp' rfl
    exact hp' hself
  have hstamp : ∀ q i, (r.entry q i).stamp = (p.entry q i).stamp := by
    intro q i
    rw [hent]
    split
    · rename_i heq
      rw [hes, heq.1, heq.2]
    · rfl
  -- the entry of another pending watcher is another one
  have hother : ∀ w', r.pending w' ≠ 0 →
      r.entry (p.abspri w') (p.pending w' - 1) = p.entry (p.abspri w') (p.pending w' - 1) := by
    intro w' hp'
    rw [hent, if_neg]
    rintro ⟨h₁, h₂⟩
    have hpw : p.pending w' ≠ 0 := hold w' (hne w' hp') ▸ hp'
    refine hne w' hp' ?_
    rw [← (h.held w' hpw).2, ← hw, h₁, h₂, hw]
  refine ⟨by unfold InRange; rw [hprio]; exact h.range, ?_, ?_, fun q i hi hd => ?_, fun w' hp' => ?_,
    fun w' => ?_, fun w' hp' => ?_, fun q i j hij hj => ?_, fun q i hi => ?_⟩
  · by_cases hd : p.pendingW = w
    · exact absurd (hd ▸ h.dummy) hp
    · rw [hW, hold _ hd]
      exact h.dummy
  · rw [hcnt]
    exact h.top
  · rw [hcnt] at hi
    rw [hW] at hd
    rw [hent] at hd ⊢
    split at hd
    · exact absurd he hd
    · rename_i hqi
      rw [if_neg hqi]
      obtain ⟨h₁, h₂⟩ := h.live q i hi hd
      rw [habs]
      refine ⟨h₁, (hold _ fun heq => hqi ?_).trans h₂⟩
      rw [heq] at h₁ h₂
      exact ⟨h₁, by omega⟩
  · have hpw := hold w' (hne w' hp')
    rw [habs, hpw, hother w' hp', hcnt]
    exact h.held w' (hpw ▸ hp')
  · by_cases hww : w' = w
    · subst hww
      simp [hself]
    · rw [hold w' hww, Function.update_of_ne hww]
      exact h.queued w'
  · have hpw := hold w' (hne w' hp')
    rw [habs, hpw, hother w' hp', Function.update_of_ne (hne w' hp')]
    exact h.events w' (hpw ▸ hp')
  · rw [hcnt] at hj
    rw [hstamp, hstamp]
    exact h.stamps q i j hij hj
  · rw [hcnt] at hi
    rw [hstamp, hclock]
    exact h.clock q i hi

theorem ok_clear (h : p.Ok fed) : (p.clearPending w).Ok (Function.update fed w []) := by
  unfold clearPending
  by_cases hp : p.pending w = 0
  · have hfed : fed w = [] := by
      by_contra hne
      exact (h.queued w).mpr hne hp
    simp only [hp, ne_eq, not_true_eq_false, ↓reduceIte]
    rwa [← hfed, Function.update_eq_self]
  · simp only [hp, ne_eq, not_false_eq_true, ↓reduceIte]
    exact h.blank hp rfl rfl rfl rfl rfl rfl (fun q i => entry_setEntry ..) rfl rfl rfl

/-- The top entry of the stack `pri` is taken, as `ev_invoke_pending` does. -/
def pop (p : Pend W) (pri : ℕ) : Pend W :=
  let n := p.pendingcnt pri - 1
  (p.setCnt pri n).setPending (p.entry pri n).w 0

theorem ok_pop (h : p.Ok fed) (hcnt : p.pendingcnt pri ≠ 0) :
    (p.pop pri).Ok (Function.update fed (p.entry pri (p.pendingcnt pri - 1)).w []) := by
  obtain ⟨n, hn⟩ : ∃ n, p.pendingcnt pri = n + 1 := Nat.exists_eq_succ_of_ne_zero hcnt
  have heq : p.pop pri = (p.setCnt pri n).setPending (p.entry pri n).w 0 := by
    unfold pop
    rw [hn, Nat.add_sub_cancel]
  rw [heq, hn, Nat.add_sub_cancel]
  generalize hw : (p.entry pri n).w = w
  have hcnt' : ∀ q, ((p.setCnt pri n).setPending w 0).pendingcnt q = if q = pri then n else p.pendingcnt q :=
    fun q => Function.update_apply ..
  have hpend : ∀ w', w' ≠ w → ((p.setCnt pri n).setPending w 0).pending w' = p.pending w' := fun w' hne =>
    Function.update_of_ne hne ..
  have hself : ((p.setCnt pri n).setPending w 0).pending w = 0 := Function.update_self ..
  have hlt : ∀ q i, i < ((p.setCnt pri n).setPending w 0).pendingcnt q → i < p.pendingcnt q := by
    intro q i hi
    rw [hcnt'] at hi
    split at hi
    · rename_i hq
      rw [hq, hn]
      omega
    · exact hi
  refine ⟨h.range, ?_, fun q hq => ?_, fun q i hi hne => ?_, fun w' hp' => ?_, fun w' => ?_,
    fun w' hp' => ?_, fun q i j hij hj => h.stamps q i j hij (hlt q j hj),
    fun q i hi => h.clock q i (hlt q i hi)⟩
  · by_cases hd : p.pendingW = w
    · exact (congrArg _ hd).trans hself
    · exact (hpend _ hd).trans h.dummy
  · have h0 := h.top q hq
    rw [hcnt', if_neg (by rintro rfl; omega)]
    exact h0
  · obtain ⟨h₁, h₂⟩ := h.live q i (hlt q i hi) hne
    refine ⟨h₁, (hpend _ fun he => ?_).trans h₂⟩
    -- the entry at the top names nobody else
    have hne' : (p.entry pri n).w ≠ p.pendingW := by
      rw [hw, ← he]
      exact hne
    obtain ⟨rfl, rfl⟩ := h.top_unique (hlt q i hi) (by omega : n < p.pendingcnt pri) hne
      ((show (p.entry q i).w = w from he).trans hw.symm)
    rw [hcnt', if_pos rfl] at hi
    omega
  · have hww : w' ≠ w := by
      rintro rfl
      exact hp' hself
    rw [hpend w' hww] at hp' ⊢
    obtain ⟨h₁, h₂⟩ := h.held w' hp'
    refine ⟨?_, h₂⟩
    show _ ≤ ((p.setCnt pri n).setPending w 0).pendingcnt (p.abspri w')
    rw [hcnt']
    split
    · rename_i hq
      have hne : p.pending w' ≠ n + 1 := fun hpe => hww (by rw [← h₂, hq, hpe, Nat.add_sub_cancel, hw])
      rw [hq, hn] at h₁
      omega
    · exact h₁
  · by_cases hww : w' = w
    · subst hww
      simp [hself]
    · rw [hpend w' hww, Function.update_of_ne hww]
      exact h.queued w'
  · have hww : w' ≠ w := by
      rintro rfl
      exact hp' hself
    rw [hpend w' hww] at hp' ⊢
    rw [Function.update_of_ne hww]
    exact h.events w' hp'

/-! ### What feeding leaves alone -/

@[simp] theorem pendingW_feed (p : Pend W) (w : W) (revents : Events) :
    (p.evFeedEvent w revents).pendingW = p.pendingW := by
  unfold evFeedEvent
  by_cases h : p.pending w = 0
  · simp [h, setEntry, setCnt, setPending]
  · simp [h, setEntry]

@[simp] theorem pendingW_clear (p : Pend W) (w : W) : (p.clearPending w).pendingW = p.pendingW := by
  unfold clearPending
  split
  · rfl
  · rfl

@[simp] theorem rfeeds_feed (p : Pend W) (w : W) (revents : Events) :
    (p.evFeedEvent w revents).rfeeds = p.rfeeds := by
  unfold evFeedEvent
  by_cases h : p.pending w = 0
  · simp [h, setEntry, setCnt, setPending]
  · simp [h, setEntry]

/-! ### What is pending after -/

section

omit [DecidableEq W]

/-- What is pending for a watcher is what was fed to it. -/
theorem Ok.pendingEvents_eq (h : p.Ok fed) (w : W) : p.pendingEvents w = orAll (fed w) := by
  unfold pendingEvents
  by_cases hp : p.pending w = 0
  · have hfed : fed w = [] := by
      by_contra hne
      exact (h.queued w).mpr hne hp
    rw [if_neg (not_not.mpr hp), hfed]
    rfl
  · rw [if_pos hp]
    exact h.events w hp

end

theorem Ok.pendingEvents_update {fed' : W → List Events} {q : Pend W} (h : p.Ok fed) (hq : q.Ok fed') {x : List Events}
    (hfed : fed' = Function.update fed w x) (v : W) :
    q.pendingEvents v = if v = w then orAll x else p.pendingEvents v := by
  rw [hq.pendingEvents_eq, h.pendingEvents_eq, hfed, Function.update_apply]
  split
  · rfl
  · rfl

theorem Ok.pendingEvents_feed (h : p.Ok fed) (hw : w ≠ p.pendingW) (revents : Events) (v : W) :
    (p.evFeedEvent w revents).pendingEvents v =
      if v = w then revents ||| p.pendingEvents w else p.pendingEvents v := by
  rw [h.pendingEvents_update (ok_feed h hw revents) rfl, h.pendingEvents_eq w]
  rfl

theorem Ok.pendingEvents_clear (h : p.Ok fed) (v : W) :
    (p.clearPending w).pendingEvents v = if v = w then 0 else p.pendingEvents v :=
  h.pendingEvents_update (ok_clear h) rfl v

theorem pending_feed_eq (p : Pend W) (w v : W) (revents : Events) : (p.evFeedEvent w revents).pending v =
    if v = w ∧ p.pending w = 0 then p.pendingcnt (p.abspri w) + 1 else p.pending v := by
  unfold evFeedEvent
  by_cases hp : p.pending w = 0
  · simp only [hp, ne_eq, not_true_eq_false, ↓reduceIte, and_true]
    exact Function.update_apply ..
  · simp only [hp, ne_eq, not_false_eq_true, ↓reduceIte, and_false]
    rfl

theorem pending_feed (p : Pend W) (w v : W) (revents : Events) :
    (p.evFeedEvent w revents).pending v ≠ 0 ↔ p.pending v ≠ 0 ∨ v = w := by
  rw [pending_feed_eq]
  split
  · rename_i hv
    exact iff_of_true (Nat.succ_ne_zero _) (.inr hv.1)
  · rename_i hv
    refine ⟨.inl, ?_⟩
    rintro (h | h)
    · exact h
    · exact fun h0 => hv ⟨h, h ▸ h0⟩

theorem pending_feeds (ws : List W) (p : Pend W) (v : W) (revents : Events) :
    (ws.foldl (fun p w => p.evFeedEvent w revents) p).pending v ≠ 0 ↔ v ∈ ws ∨ p.pending v ≠ 0 := by
  induction ws generalizing p with
  | nil => exact (or_iff_right List.not_mem_nil).symm
  | cons w ws ih =>
    rw [List.foldl_cons, ih, pending_feed, List.mem_cons]
    tauto

theorem pending_clear (p : Pend W) (w v : W) :
    (p.clearPending w).pending v = if v = w then 0 else p.pending v := by
  unfold clearPending
  by_cases hp : p.pending w = 0
  · simp only [hp, ne_eq, not_true_eq_false, ↓reduceIte]
    split
    · rename_i hv
      rw [hv, hp]
    · rfl
  · simp only [hp, ne_eq, not_false_eq_true, ↓reduceIte]
    exact Function.update_apply ..

end Pend

end Qev
