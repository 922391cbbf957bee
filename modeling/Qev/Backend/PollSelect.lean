/-
# The poll and select backends

`poll_modify` keeps an array of `pollfd`s without holes, the place of each fd in it in `pollidxs`, and moves
the last entry to where one is removed; `select_modify` keeps two vectors of bits. Both grow with the
fds they are told of.

After any sequence of changes the array and the vectors stand for the same map from fds to what they
are watched for, so that both hand the kernel the same set (`poll_select_sets`). What they report differs in what
they make of an error or a hang-up, which `poll_poll` takes for both events and select(2) answers only for
what it was asked.
-/
import Qev.Lib.Bits
import Qev.Lib.Run
import Qev.Loop.Grow
import Qev.Loop.State

namespace Qev

open Lib

open Grow (intMax capacity le_capacity cur_le_capacity)

/-! ### poll -/

/-- What `ev_io_start` lets a watcher ask for. -/
def Legal (events : Events) : Prop := events &&& ~~~(evRead ||| evWrite) = 0

instance (events : Events) : Decidable (Legal events) := inferInstanceAs (Decidable (_ = _))

/-- The `short` of a `pollfd`. -/
abbrev PollBits := BitVec 16

def pollin : PollBits := 0x01

def pollout : PollBits := 0x04

def pollerr : PollBits := 0x08

def pollhup : PollBits := 0x10

def pollnval : PollBits := 0x20

/-- `POLLRDHUP`, which some hosts have. -/
def pollrdhup (hasRdhup : Bool) : PollBits := if hasRdhup then 0x2000 else 0

structure Pollfd where
  fd : ℕ
  events : PollBits
  deriving DecidableEq

/-- The `pollfd`s and the place of each fd among them, negative if it has none. -/
structure Polls where
  pollidxs : ℕ → ℤ
  pollidxmax : ℕ
  polls : ℕ → Pollfd
  pollmax : ℕ
  pollcnt : ℕ

namespace Polls

variable (hasRdhup : Bool)

def pollEvents (nev : Events) : PollBits :=
  (if nev &&& evRead ≠ 0 then pollin ||| pollrdhup hasRdhup else 0) ||| if nev &&& evWrite ≠ 0 then pollout else 0

/-- `poll_init`. -/
def init : Polls := ⟨fun _ => 0, 0, fun _ => ⟨0, 0⟩, 0, 0⟩

variable (p : Polls)

/-- `array_needsize` of `pollidxs`, with `array_needsize_pollidx`. -/
def needPollidxs (cnt : ℕ) : Polls :=
  let max := capacity 4 p.pollidxmax cnt
  { p with pollidxmax := max, pollidxs := fun i => if p.pollidxmax ≤ i ∧ i < max then -1 else p.pollidxs i }

/-- A new entry at the end, for this fd. -/
def allocate (fd : ℕ) : Polls :=
  let idx := p.pollcnt
  { p with pollidxs := Function.update p.pollidxs fd idx, pollcnt := idx + 1
           pollmax := capacity 8 p.pollmax (idx + 1)
           polls := Function.update p.polls idx { p.polls idx with fd := fd } }

def setEvents (idx : ℕ) (nev : Events) : Polls :=
  { p with polls := Function.update p.polls idx { p.polls idx with events := pollEvents hasRdhup nev } }

/-- The entry of the fd at `idx` is removed, and the last one takes its place. -/
def remove (fd idx : ℕ) : Polls :=
  let p := { p with pollidxs := Function.update p.pollidxs fd (-1), pollcnt := p.pollcnt - 1 }
  if idx < p.pollcnt then
    let e := p.polls p.pollcnt
    { p with polls := Function.update p.polls idx e, pollidxs := Function.update p.pollidxs e.fd idx }
  else p

/-- `poll_modify`; none if its assertion fails. -/
def pollModify (fd : ℕ) (oev nev : Events) : Option Polls :=
  if oev = nev then some p
  else
    let p := p.needPollidxs (fd + 1)
    let p := if p.pollidxs fd < 0 then p.allocate fd else p
    let idx := (p.pollidxs fd).toNat
    if (p.polls idx).fd ≠ fd then none
    else if nev ≠ 0 then some (p.setEvents hasRdhup idx nev)
    else some (p.remove fd idx)

/-- The array and the places are each other's inverse, and stand for the map `m`. -/
structure Represents (m : ℕ → Events) : Prop where
  entry : ∀ i < p.pollcnt, (p.polls i).fd < p.pollidxmax ∧ p.pollidxs (p.polls i).fd = i ∧
    m (p.polls i).fd ≠ 0 ∧ (p.polls i).events = pollEvents hasRdhup (m (p.polls i).fd)
  place : ∀ fd < p.pollidxmax, 0 ≤ p.pollidxs fd → (p.pollidxs fd).toNat < p.pollcnt ∧
    (p.polls (p.pollidxs fd).toNat).fd = fd
  watched : ∀ fd, m fd ≠ 0 → fd < p.pollidxmax ∧ 0 ≤ p.pollidxs fd
  bound : ∀ fd, m fd ≠ 0 → fd < intMax
  room : p.pollcnt ≤ p.pollmax

variable {hasRdhup} {p} {m : ℕ → Events} {fd : ℕ} {nev : Events}

theorem represents_init : init.Represents hasRdhup fun _ => 0 where
  entry _ hi := absurd hi (Nat.not_lt_zero _)
  place _ hf := absurd hf (Nat.not_lt_zero _)
  watched _ hm := absurd rfl hm
  bound _ hm := absurd rfl hm
  room := le_refl 0

/-- Two entries are not of one fd. -/
theorem Represents.inj (h : p.Represents hasRdhup m) {i j : ℕ} (hi : i < p.pollcnt) (hj : j < p.pollcnt)
    (he : (p.polls i).fd = (p.polls j).fd) : i = j := by
  have hij := (h.entry i hi).2.1
  rw [he, (h.entry j hj).2.1] at hij
  exact (Int.ofNat_inj.mp hij).symm

/-- There are fewer entries than fds, and one more has room if it is of another fd. -/
theorem Represents.cnt_lt (h : p.Represents hasRdhup m) (hfd : fd < intMax) (hno : m fd = 0) :
    p.pollcnt + 1 ≤ intMax := by
  have hsub : (Finset.range p.pollcnt).card ≤ ((Finset.range intMax).erase fd).card := by
    refine Finset.card_le_card_of_injOn (fun i => (p.polls i).fd) (fun i hi => ?_) fun i hi j hj he => ?_
    · have hm := (h.entry i (Finset.mem_range.mp hi)).2.2.1
      refine Finset.mem_coe.mpr (Finset.mem_erase.mpr ⟨fun he => hm ?_, Finset.mem_range.mpr (h.bound _ hm)⟩)
      rw [show (p.polls i).fd = fd from he]
      exact hno
    · exact h.inj (Finset.mem_range.mp hi) (Finset.mem_range.mp hj) he
  rw [Finset.card_erase_of_mem (Finset.mem_range.mpr hfd), Finset.card_range, Finset.card_range] at hsub
  omega

theorem Represents.needPollidxs (h : p.Represents hasRdhup m) {cnt : ℕ} (hcnt : cnt ≤ intMax) :
    (p.needPollidxs cnt).Represents hasRdhup m ∧ cnt ≤ (p.needPollidxs cnt).pollidxmax := by
  have hle : p.pollidxmax ≤ capacity 4 p.pollidxmax cnt := cur_le_capacity (by omega) (by decide) hcnt
  have hold : ∀ i < p.pollidxmax, (p.needPollidxs cnt).pollidxs i = p.pollidxs i :=
    fun i hi => if_neg fun hc => absurd hc.1 (not_le.mpr hi)
  refine ⟨⟨fun i hi => ?_, fun fd hfd hpos => ?_, fun fd hm => ?_, h.bound, h.room⟩,
    le_capacity (by omega) (by decide) hcnt⟩
  · obtain ⟨hlt, hplace, hrest⟩ := h.entry i hi
    exact ⟨hlt.trans_le hle, (hold _ hlt).trans hplace, hrest⟩
  · by_cases hlt : fd < p.pollidxmax
    · rw [hold fd hlt] at hpos ⊢
      exact h.place fd hlt hpos
    · have hneg : (p.needPollidxs cnt).pollidxs fd = -1 := if_pos ⟨not_lt.mp hlt, hfd⟩
      rw [hneg] at hpos
      exact absurd hpos (by decide)
  · obtain ⟨hlt, hpos⟩ := h.watched fd hm
    exact ⟨hlt.trans_le hle, (hold fd hlt).symm ▸ hpos⟩

/-- The fd has an entry and may be watched for anything, the rest is as in `m`. -/
structure Placed (hasRdhup : Bool) (p : Polls) (m : ℕ → Events) (fd : ℕ) : Prop where
  entry : ∀ i < p.pollcnt, (p.polls i).fd < p.pollidxmax ∧ p.pollidxs (p.polls i).fd = i ∧
    ((p.polls i).fd ≠ fd → m (p.polls i).fd ≠ 0 ∧ (p.polls i).events = pollEvents hasRdhup (m (p.polls i).fd))
  place : ∀ fd < p.pollidxmax, 0 ≤ p.pollidxs fd → (p.pollidxs fd).toNat < p.pollcnt ∧
    (p.polls (p.pollidxs fd).toNat).fd = fd
  watched : ∀ fd', m fd' ≠ 0 ∨ fd' = fd → fd' < p.pollidxmax ∧ 0 ≤ p.pollidxs fd'
  bound : ∀ fd', m fd' ≠ 0 ∨ fd' = fd → fd' < intMax
  room : p.pollcnt ≤ p.pollmax

theorem Placed.inj (h : Placed hasRdhup p m fd) {i j : ℕ} (hi : i < p.pollcnt) (hj : j < p.pollcnt)
    (he : (p.polls i).fd = (p.polls j).fd) : i = j := by
  have hij := (h.entry i hi).2.1
  rw [he, (h.entry j hj).2.1] at hij
  exact (Int.ofNat_inj.mp hij).symm

/-- An fd without an entry gets one. -/
theorem Represents.placed (h : p.Represents hasRdhup m) (hfd : fd < p.pollidxmax) (hmax : fd < intMax) :
    Placed hasRdhup (if p.pollidxs fd < 0 then p.allocate fd else p) m fd := by
  have hbound : ∀ fd', m fd' ≠ 0 ∨ fd' = fd → fd' < intMax := by
    rintro fd' (hm | rfl)
    · exact h.bound fd' hm
    · exact hmax
  by_cases hneg : p.pollidxs fd < 0
  · have hno : m fd = 0 := by
      by_contra hm
      exact absurd (h.watched fd hm).2 (not_le.mpr hneg)
    rw [if_pos hneg]
    have hother : ∀ i < p.pollcnt, (p.polls i).fd ≠ fd := by
      intro i hi he
      have hpos := (h.entry i hi).2.1
      rw [he] at hpos
      omega
    have hpolls : ∀ i < p.pollcnt, (p.allocate fd).polls i = p.polls i :=
      fun i hi => Function.update_of_ne hi.ne ..
    have hlast : ((p.allocate fd).polls p.pollcnt).fd = fd := by
      show (Function.update p.polls p.pollcnt _ p.pollcnt).fd = fd
      rw [Function.update_self]
    have hplace : ∀ fd', fd' ≠ fd → (p.allocate fd).pollidxs fd' = p.pollidxs fd' :=
      fun fd' hne => Function.update_of_ne hne ..
    have hself : (p.allocate fd).pollidxs fd = p.pollcnt := Function.update_self ..
    refine ⟨fun i hi => ?_, fun fd' hfd' hpos => ?_, fun fd' hm => ?_, hbound, ?_⟩
    · rcases Nat.lt_succ_iff_lt_or_eq.mp hi with hi | rfl
      · obtain ⟨hlt, hidx, hm⟩ := h.entry i hi
        rw [hpolls i hi, hplace _ (hother i hi)]
        exact ⟨hlt, hidx, fun _ => hm⟩
      · rw [hlast]
        exact ⟨hfd, hself, fun hc => absurd rfl hc⟩
    · by_cases he : fd' = fd
      · subst he
        rw [hself, Int.toNat_natCast]
        exact ⟨Nat.lt_succ_self _, hlast⟩
      · rw [hplace fd' he] at hpos ⊢
        obtain ⟨hlt, hf⟩ := h.place fd' hfd' hpos
        exact ⟨Nat.lt_succ_of_lt hlt, by rw [hpolls _ hlt, hf]⟩
    · by_cases he : fd' = fd
      · subst he
        rw [hself]
        exact ⟨hfd, Int.natCast_nonneg _⟩
      · obtain ⟨hlt, hpos⟩ := h.watched fd' (hm.resolve_right he)
        exact ⟨hlt, by rwa [hplace fd' he]⟩
    · exact le_capacity (by omega) (by decide) (h.cnt_lt hmax hno)
  · rw [if_neg hneg]
    refine ⟨fun i hi => ?_, h.place, fun fd' hm => ?_, hbound, h.room⟩
    · obtain ⟨hlt, hidx, hm⟩ := h.entry i hi
      exact ⟨hlt, hidx, fun _ => hm⟩
    · rcases hm with hm | rfl
      · exact h.watched fd' hm
      · exact ⟨hfd, not_lt.mp hneg⟩

/-- The entry's events are set. -/
theorem Placed.setEvents (h : Placed hasRdhup p m fd) (hnev : nev ≠ 0) :
    (p.setEvents hasRdhup (p.pollidxs fd).toNat nev).Represents hasRdhup (Function.update m fd nev) := by
  unfold Polls.setEvents
  obtain ⟨hmax, hpos⟩ := h.watched fd (.inr rfl)
  obtain ⟨hlt, hfd⟩ := h.place fd hmax hpos
  generalize (p.pollidxs fd).toNat = idx at hlt hfd
  have hother : ∀ i < p.pollcnt, i ≠ idx → (p.polls i).fd ≠ fd :=
    fun i hi hne he => hne (h.inj hi hlt (he.trans hfd.symm))
  have hwatch : ∀ fd', Function.update m fd nev fd' ≠ 0 → m fd' ≠ 0 ∨ fd' = fd := by
    intro fd' hm
    by_cases he : fd' = fd
    · exact .inr he
    · rw [Function.update_of_ne he] at hm
      exact .inl hm
  refine ⟨fun i hi => ?_, fun fd' hfd' hp => ?_, fun fd' hm => h.watched fd' (hwatch fd' hm),
    fun fd' hm => h.bound fd' (hwatch fd' hm), h.room⟩
  · obtain ⟨hlt', hidx, hm⟩ := h.entry i hi
    dsimp only
    by_cases he : i = idx
    · subst he
      rw [Function.update_self]
      dsimp only
      rw [hfd] at hlt' hidx ⊢
      rw [Function.update_self]
      exact ⟨hlt', hidx, hnev, rfl⟩
    · rw [Function.update_of_ne he, Function.update_of_ne (hother i hi he)]
      exact ⟨hlt', hidx, hm (hother i hi he)⟩
  · obtain ⟨hlt', hf⟩ := h.place fd' hfd' hp
    refine ⟨hlt', ?_⟩
    dsimp only
    by_cases he : (p.pollidxs fd').toNat = idx
    · rw [he] at hf ⊢
      rwa [Function.update_self]
    · rwa [Function.update_of_ne he]

/-- The entry is removed. -/
theorem Placed.remove (h : Placed hasRdhup p m fd) :
    (p.remove fd (p.pollidxs fd).toNat).Represents hasRdhup (Function.update m fd 0) := by
  obtain ⟨hmax, hpos⟩ := h.watched fd (.inr rfl)
  obtain ⟨hlt, hfd⟩ := h.place fd hmax hpos
  generalize (p.pollidxs fd).toNat = idx at hlt hfd
  obtain ⟨n, hn⟩ : ∃ n, p.pollcnt = n + 1 := ⟨p.pollcnt - 1, by omega⟩
  have hother : ∀ i < p.pollcnt, i ≠ idx → (p.polls i).fd ≠ fd :=
    fun i hi hne he => hne (h.inj hi hlt (he.trans hfd.symm))
  have hwatch : ∀ fd', Function.update m fd 0 fd' ≠ 0 → m fd' ≠ 0 ∧ fd' ≠ fd := by
    intro fd' hm
    by_cases he : fd' = fd
    · rw [he, Function.update_self] at hm
      exact absurd rfl hm
    · rw [Function.update_of_ne he] at hm
      exact ⟨hm, he⟩
  have hroom := h.room
  unfold Polls.remove
  dsimp only
  simp only [hn, Nat.add_sub_cancel]
  by_cases hlast : idx < n
  · rw [if_pos hlast]
    have hne : (p.polls n).fd ≠ fd := hother n (by omega) (by omega)
    -- another fd's place
    have hplace : ∀ fd', fd' ≠ fd → fd' ≠ (p.polls n).fd →
        Function.update (Function.update p.pollidxs fd (-1)) (p.polls n).fd (idx : ℤ) fd' = p.pollidxs fd' := by
      intro fd' h₁ h₂
      rw [Function.update_of_ne h₂, Function.update_of_ne h₁]
    refine ⟨fun i (hi : i < n) => ?_, fun fd' hfd' hp => ?_, fun fd' hm => ?_,
      fun fd' hm => h.bound fd' (.inl (hwatch fd' hm).1), (by omega : n ≤ p.pollmax)⟩
    · dsimp only
      by_cases he : i = idx
      · subst he
        obtain ⟨hlt', -, hm⟩ := h.entry n (by omega)
        rw [Function.update_self, Function.update_self, Function.update_of_ne hne]
        exact ⟨hlt', rfl, hm hne⟩
      · obtain ⟨hlt', hidx, hm⟩ := h.entry i (by omega)
        have hne' : (p.polls i).fd ≠ (p.polls n).fd := fun hc => absurd (h.inj (by omega) (by omega) hc) (by omega)
        have hfd' := hother i (by omega) he
        rw [Function.update_of_ne he, hplace _ hfd' hne', Function.update_of_ne hfd']
        exact ⟨hlt', hidx, hm hfd'⟩
    · dsimp only at hp hfd' ⊢
      by_cases hen : fd' = (p.polls n).fd
      · subst hen
        rw [Function.update_self, Int.toNat_natCast, Function.update_self]
        exact ⟨hlast, rfl⟩
      · by_cases hef : fd' = fd
        · rw [hef, Function.update_of_ne hne.symm, Function.update_self] at hp
          exact absurd hp (by decide)
        · rw [hplace fd' hef hen] at hp ⊢
          obtain ⟨hlt', hf⟩ := h.place fd' hfd' hp
          have hne₁ : (p.pollidxs fd').toNat ≠ idx := fun hc => hef (by rw [← hf, hc, hfd])
          have hne₂ : (p.pollidxs fd').toNat ≠ n := fun hc => hen (by rw [← hf, hc])
          rw [Function.update_of_ne hne₁]
          exact ⟨by omega, hf⟩
    · obtain ⟨hm, hef⟩ := hwatch fd' hm
      obtain ⟨hlt', hp⟩ := h.watched fd' (.inl hm)
      refine ⟨hlt', ?_⟩
      dsimp only
      by_cases hen : fd' = (p.polls n).fd
      · subst hen
        rw [Function.update_self]
        exact Int.natCast_nonneg _
      · rwa [hplace fd' hef hen]
  · rw [if_neg hlast]
    obtain rfl : idx = n := by omega
    refine ⟨fun i (hi : i < idx) => ?_, fun fd' hfd' hp => ?_, fun fd' hm => ?_,
      fun fd' hm => h.bound fd' (.inl (hwatch fd' hm).1), (by omega : idx ≤ p.pollmax)⟩
    · obtain ⟨hlt', hidx, hm⟩ := h.entry i (by omega)
      have hfd' := hother i (by omega) (by omega)
      dsimp only
      rw [Function.update_of_ne hfd', Function.update_of_ne hfd']
      exact ⟨hlt', hidx, hm hfd'⟩
    · dsimp only at hp hfd' ⊢
      by_cases hef : fd' = fd
      · rw [hef, Function.update_self] at hp
        exact absurd hp (by decide)
      · rw [Function.update_of_ne hef] at hp ⊢
        obtain ⟨hlt', hf⟩ := h.place fd' hfd' hp
        have hne : (p.pollidxs fd').toNat ≠ idx := fun hc => hef (by rw [← hf, hc, hfd])
        exact ⟨by omega, hf⟩
    · obtain ⟨hm, hef⟩ := hwatch fd' hm
      obtain ⟨hlt', hp⟩ := h.watched fd' (.inl hm)
      refine ⟨hlt', ?_⟩
      dsimp only
      rwa [Function.update_of_ne hef]

/-- `poll_modify` with the fd's mask for `oev`: its assertion holds, and the array stands for the new map. -/
theorem Represents.pollModify (h : p.Represents hasRdhup m) (hmax : fd < intMax) (nev : Events) :
    ∃ q, p.pollModify hasRdhup fd (m fd) nev = some q ∧ q.Represents hasRdhup (Function.update m fd nev) := by
  unfold Polls.pollModify
  by_cases hsame : m fd = nev
  · refine ⟨p, if_pos hsame, ?_⟩
    rwa [← hsame, Function.update_eq_self]
  · rw [if_neg hsame]
    have hcnt : fd + 1 ≤ intMax := hmax
    obtain ⟨hneed, hlt⟩ := h.needPollidxs hcnt
    have hroom : fd < (p.needPollidxs (fd + 1)).pollidxmax := by omega
    have hpl := hneed.placed hroom hmax
    dsimp only
    generalize (if (p.needPollidxs (fd + 1)).pollidxs fd < 0 then (p.needPollidxs (fd + 1)).allocate fd
      else p.needPollidxs (fd + 1)) = q at hpl
    obtain ⟨hmax', hpos⟩ := hpl.watched fd (.inr rfl)
    rw [if_neg (not_not.mpr (hpl.place fd hmax' hpos).2)]
    by_cases hnev : nev = 0
    · subst hnev
      exact ⟨_, if_neg (not_not.mpr rfl), hpl.remove⟩
    · exact ⟨_, if_pos hnev, hpl.setEvents hnev⟩

end Polls

/-! ### select -/

/-- The vectors of bits, in words of `n`. -/
structure Vecs (n : ℕ) where
  vecMax : ℕ
  vecRi : ℕ → BitVec n
  vecWi : ℕ → BitVec n

namespace Vecs

variable {n : ℕ}

/-- `select_init`. -/
def init : Vecs n := ⟨0, fun _ => 0, fun _ => 0⟩

/-- The words up to this one, the new ones zero. -/
def grow (v : Vecs n) (word : ℕ) : Vecs n :=
  if v.vecMax ≤ word then
    { vecMax := word + 1
      vecRi := fun i => if v.vecMax ≤ i ∧ i < word + 1 then 0 else v.vecRi i
      vecWi := fun i => if v.vecMax ≤ i ∧ i < word + 1 then 0 else v.vecWi i }
  else v

/-- The bits of the mask are set, and cleared again unless they are wanted. -/
def setMask (vec : ℕ → BitVec n) (word : ℕ) (mask : BitVec n) (wanted : Prop) [Decidable wanted] : ℕ → BitVec n :=
  let vec := Function.update vec word (vec word ||| mask)
  if wanted then vec else Function.update vec word (vec word &&& ~~~mask)

def selectModify (v : Vecs n) (fd : ℕ) (oev nev : Events) : Vecs n :=
  if oev = nev then v
  else
    let word := fd / n
    let mask := 1#n <<< (fd % n)
    let v := v.grow word
    { v with vecRi := setMask v.vecRi word mask (nev &&& evRead ≠ 0)
             vecWi := setMask v.vecWi word mask (nev &&& evWrite ≠ 0) }

/-- The fd's bit. -/
def bit (vec : ℕ → BitVec n) (fd : ℕ) : Bool := (vec (fd / n)).getLsbD (fd % n)

/-- The vectors stand for the map `m`. -/
structure Represents (v : Vecs n) (m : ℕ → Events) : Prop where
  read : ∀ fd, fd / n < v.vecMax ∧ bit v.vecRi fd = true ↔ m fd &&& evRead ≠ 0
  write : ∀ fd, fd / n < v.vecMax ∧ bit v.vecWi fd = true ↔ m fd &&& evWrite ≠ 0

variable {v : Vecs n} {m : ℕ → Events} {fd : ℕ} {nev : Events}

theorem represents_init : (init : Vecs n).Represents fun _ => 0 :=
  ⟨fun _ => ⟨fun h => absurd h.1 (Nat.not_lt_zero _), fun h => absurd rfl h⟩,
    fun _ => ⟨fun h => absurd h.1 (Nat.not_lt_zero _), fun h => absurd rfl h⟩⟩

theorem bit_setMask (hn : 0 < n) (vec : ℕ → BitVec n) (wanted : Prop) [Decidable wanted] (fd' : ℕ) :
    bit (setMask vec (fd / n) (1#n <<< (fd % n)) wanted) fd' = if fd' = fd then decide wanted else bit vec fd' := by
  have hlt : fd % n < n := Nat.mod_lt _ hn
  have hlt' : fd' % n < n := Nat.mod_lt _ hn
  have hmask : (1#n <<< (fd % n)).getLsbD (fd' % n) = decide (fd' % n = fd % n) := by
    rw [← BitVec.twoPow_eq, BitVec.getLsbD_twoPow]
    simp [hlt, eq_comm]
  unfold bit setMask
  by_cases hw : fd' / n = fd / n
  · have hfd : fd' = fd ↔ fd' % n = fd % n :=
      ⟨fun h => by rw [h], fun h => by rw [← Nat.div_add_mod fd' n, hw, h, Nat.div_add_mod]⟩
    rw [hw]
    split
    · rename_i hwant
      rw [Function.update_self, BitVec.getLsbD_or, hmask]
      by_cases he : fd' % n = fd % n
      · simp [hfd, he, hwant]
      · simp [hfd, he]
    · rename_i hwant
      rw [Function.update_self, Function.update_self, BitVec.getLsbD_and, BitVec.getLsbD_or, BitVec.getLsbD_not,
        hmask]
      by_cases he : fd' % n = fd % n
      · simp [hfd, he, hwant]
      · simp [hfd, he, hlt']
  · have hne : fd' ≠ fd := fun h => hw (by rw [h])
    rw [if_neg hne]
    split
    · rw [Function.update_of_ne hw]
    · rw [Function.update_of_ne hw, Function.update_of_ne hw]

/-- In a grown vector a word is in range, and an fd's bit as it was or, where there was no word, zero. -/
theorem grow_bit (v : Vecs n) (word fd : ℕ) : word < (v.grow word).vecMax ∧
    (fd / n < (v.grow word).vecMax ∧ bit (v.grow word).vecRi fd = true ↔
      fd / n < v.vecMax ∧ bit v.vecRi fd = true) ∧
    (fd / n < (v.grow word).vecMax ∧ bit (v.grow word).vecWi fd = true ↔
      fd / n < v.vecMax ∧ bit v.vecWi fd = true) := by
  have hnew : ∀ vec : ℕ → BitVec n, v.vecMax ≤ word →
      (fd / n < word + 1 ∧ bit (fun i => if v.vecMax ≤ i ∧ i < word + 1 then 0 else vec i) fd = true ↔
        fd / n < v.vecMax ∧ bit vec fd = true) := by
    intro vec hle
    unfold bit
    dsimp only
    by_cases hw : v.vecMax ≤ fd / n ∧ fd / n < word + 1
    · rw [if_pos hw]
      refine iff_of_false (fun h => ?_) fun h => absurd h.1 (not_lt.mpr hw.1)
      simp at h
    · rw [if_neg hw]
      refine and_congr_left fun _ => ⟨fun h => ?_, fun h => by omega⟩
      by_contra hge
      exact hw ⟨not_lt.mp hge, h⟩
  unfold grow
  split
  · rename_i hle
    exact ⟨Nat.lt_succ_self word, hnew v.vecRi hle, hnew v.vecWi hle⟩
  · rename_i hlt
    exact ⟨not_le.mp hlt, Iff.rfl, Iff.rfl⟩

/-- `select_modify` with the fd's mask for `oev`: the vectors stand for the new map. -/
theorem Represents.selectModify (h : v.Represents m) (hn : 0 < n) (fd : ℕ) (nev : Events) :
    (v.selectModify fd (m fd) nev).Represents (Function.update m fd nev) := by
  unfold Vecs.selectModify
  by_cases hsame : m fd = nev
  · rw [if_pos hsame, ← hsame, Function.update_eq_self]
    exact h
  · rw [if_neg hsame]
    have hset : ∀ (vec : ℕ → BitVec n) (ev : Events),
        (∀ fd', fd' / n < (v.grow (fd / n)).vecMax ∧ bit vec fd' = true ↔ m fd' &&& ev ≠ 0) → ∀ fd',
        fd' / n < (v.grow (fd / n)).vecMax ∧
          bit (setMask vec (fd / n) (1#n <<< (fd % n)) (nev &&& ev ≠ 0)) fd' = true ↔
            Function.update m fd nev fd' &&& ev ≠ 0 := by
      intro vec ev hvec fd'
      rw [bit_setMask hn]
      by_cases he : fd' = fd
      · subst he
        rw [if_pos rfl, Function.update_self, decide_eq_true_eq]
        exact and_iff_right (grow_bit v (fd' / n) fd').1
      · rw [if_neg he, Function.update_of_ne he]
        exact hvec fd'
    exact ⟨hset _ _ fun fd' => (grow_bit v (fd / n) fd').2.1.trans (h.read fd'),
      hset _ _ fun fd' => (grow_bit v (fd / n) fd').2.2.trans (h.write fd')⟩

end Vecs

/-! ### What they report -/

/-- What a poll function makes of an fd: `fd_event` or `fd_kill`. -/
inductive Report
  | event (fd : ℕ) (revents : Events)
  | kill (fd : ℕ)
  deriving DecidableEq

/-- The events of an fd that is reported. -/
def Report.told (fd : ℕ) : Report → Option Events
  | .event fd' revents => if fd' = fd then some revents else none
  | .kill _ => none

namespace Polls

variable (hasRdhup : Bool) (p : Polls)

/-- The events `poll_poll` makes of `revents`. -/
def pollBits (revents : PollBits) : Events :=
  (if revents &&& (pollout ||| pollerr ||| pollhup) ≠ 0 then evWrite else 0) |||
    if revents &&& (pollin ||| pollerr ||| pollhup ||| pollrdhup hasRdhup) ≠ 0 then evRead else 0

def pollReport (fd : ℕ) (revents : PollBits) : Report :=
  if revents &&& pollnval ≠ 0 then .kill fd else .event fd (pollBits hasRdhup revents)

/-- The loop of `poll_poll` over `n` entries from `i` on, `res` of them with something in `revents`. -/
def scan (revents : ℕ → PollBits) : ℕ → ℕ → ℕ → List Report
  | 0, _, _ => []
  | n + 1, i, res =>
    if res = 0 then []
    else if revents i ≠ 0 then pollReport hasRdhup (p.polls i).fd (revents i) :: scan revents n (i + 1) (res - 1)
    else scan revents n (i + 1) res

/-- `poll_poll`, by the `revents` poll(2) sets; it returns in how many there is something. -/
def pollPoll (revents : ℕ → PollBits) : List Report :=
  p.scan hasRdhup revents p.pollcnt 0 ((List.range' 0 p.pollcnt).countP (revents · ≠ 0))

end Polls

namespace Vecs

variable {n : ℕ}

/-- The inner loop of `select_poll`. -/
def selectWord (word : ℕ) (wordR wordW : BitVec n) : List Report :=
  if wordR ≠ 0 ∨ wordW ≠ 0 then
    (List.range n).reverse.filterMap fun bit =>
      let mask := 1#n <<< bit
      let events := (if wordR &&& mask ≠ 0 then evRead else 0) ||| if wordW &&& mask ≠ 0 then evWrite else 0
      if events ≠ 0 then some (.event (word * n + bit) events) else none
  else []

/-- `select_poll`, by the vectors select(2) leaves. -/
def selectPoll (v : Vecs n) (vecRo vecWo : ℕ → BitVec n) : List Report :=
  (List.range v.vecMax).reverse.flatMap fun word => selectWord word (vecRo word) (vecWo word)

end Vecs

/-! ### What the kernel answers -/

/-- The state of the fds, by the bits of poll(2). -/
structure Ready (hasRdhup : Bool) where
  bits : ℕ → PollBits
  /-- A half-close is an end of file to be read. -/
  rdhup : ∀ fd, bits fd &&& pollrdhup hasRdhup ≠ 0 → bits fd &&& pollin ≠ 0

namespace Ready

variable {hasRdhup : Bool} (k : Ready hasRdhup)

/-- poll(2): what is asked for, and errors in any case. -/
def answer (fd : ℕ) (events : PollBits) : PollBits := k.bits fd &&& (events ||| pollerr ||| pollhup ||| pollnval)

def poll (p : Polls) (i : ℕ) : PollBits := k.answer (p.polls i).fd (p.polls i).events

/-- select(2): an fd is readable with something to read, an error or a hang-up, and writable with room or an
error. -/
def readable (fd : ℕ) : Prop := k.bits fd &&& (pollin ||| pollerr ||| pollhup) ≠ 0

def writable (fd : ℕ) : Prop := k.bits fd &&& (pollout ||| pollerr) ≠ 0

instance (fd : ℕ) : Decidable (k.readable fd) := inferInstanceAs (Decidable (_ ≠ _))

instance (fd : ℕ) : Decidable (k.writable fd) := inferInstanceAs (Decidable (_ ≠ _))

/-- The bits of the vector for which the fd is ready. -/
def select {n : ℕ} (vec : ℕ → BitVec n) (ready : ℕ → Prop) [DecidablePred ready] (word : ℕ) : BitVec n :=
  BitVec.ofFnLE fun i => (vec word).getLsbD i && decide (ready (word * n + i))

/-- What `poll_poll` reports of an fd that is watched for `nev`. -/
def pollTold (fd : ℕ) (nev : Events) : Events :=
  if nev = 0 then 0 else Polls.pollBits hasRdhup (k.answer fd (Polls.pollEvents hasRdhup nev))

/-- What `select_poll` does. -/
def selectTold (fd : ℕ) (nev : Events) : Events :=
  (if nev &&& evRead ≠ 0 ∧ k.readable fd then evRead else 0) |||
    if nev &&& evWrite ≠ 0 ∧ k.writable fd then evWrite else 0

end Ready

/-- A list with one element at most that `f` takes. -/
theorem filterMap_unique {α β : Type*} {f : α → Option β} {l : List α} {a : α} (hn : l.Nodup) (ha : a ∈ l)
    (hu : ∀ b ∈ l, b ≠ a → f b = none) : l.filterMap f = (f a).toList := by
  induction l with
  | nil => exact absurd ha List.not_mem_nil
  | cons b l ih =>
    obtain ⟨hb, hn⟩ := List.nodup_cons.mp hn
    by_cases he : b = a
    · subst he
      have hnil : l.filterMap f = [] :=
        List.filterMap_eq_nil_iff.mpr fun c hc => hu c (List.mem_cons_of_mem b hc) fun hcb => hb (hcb ▸ hc)
      cases hf : f b with
      | none => rw [List.filterMap_cons_none hf, hnil, Option.toList_none]
      | some x => rw [List.filterMap_cons_some hf, hnil, Option.toList_some]
    · rw [List.filterMap_cons_none (hu b List.mem_cons_self he)]
      exact ih hn ((List.mem_cons.mp ha).resolve_left (Ne.symm he)) fun c hc => hu c (List.mem_cons_of_mem b hc)

/-- As `filterMap_unique`, for lists of which all but one are empty. -/
theorem flatMap_unique {α β : Type*} {f : α → List β} {l : List α} {a : α} (hn : l.Nodup) (ha : a ∈ l)
    (hu : ∀ b ∈ l, b ≠ a → f b = []) : l.flatMap f = f a := by
  induction l with
  | nil => exact absurd ha List.not_mem_nil
  | cons b l ih =>
    obtain ⟨hb, hn⟩ := List.nodup_cons.mp hn
    rw [List.flatMap_cons]
    by_cases he : b = a
    · subst he
      have hnil : l.flatMap f = [] :=
        List.flatMap_eq_nil_iff.mpr fun c hc => hu c (List.mem_cons_of_mem b hc) fun hcb => hb (hcb ▸ hc)
      rw [hnil, List.append_nil]
    · rw [hu b List.mem_cons_self he, List.nil_append]
      exact ih hn ((List.mem_cons.mp ha).resolve_left (Ne.symm he)) fun c hc => hu c (List.mem_cons_of_mem b hc)

namespace Polls

variable {hasRdhup : Bool} {p : Polls} {m : ℕ → Events}

theorem scan_done (revents : ℕ → PollBits) (n i : ℕ) : p.scan hasRdhup revents n i 0 = [] := by
  cases n with
  | zero => rfl
  | succ n => exact if_pos rfl

/-- The scan finds all entries with something in `revents`, in order. -/
theorem scan_eq (revents : ℕ → PollBits) (n i : ℕ) :
    p.scan hasRdhup revents n i ((List.range' i n).countP (revents · ≠ 0)) =
      (List.range' i n).filterMap fun i =>
        if revents i ≠ 0 then some (pollReport hasRdhup (p.polls i).fd (revents i)) else none := by
  induction n generalizing i with
  | zero => rfl
  | succ n ih =>
    unfold scan
    by_cases hr : revents i = 0
    · simp only [List.range'_succ, List.countP_cons, List.filterMap_cons, hr, ne_eq, not_true_eq_false, decide_false,
        Bool.false_eq_true, ↓reduceIte, Nat.add_zero]
      refine Eq.trans ?_ (ih (i + 1))
      split
      · rename_i h0
        exact (congrArg _ h0).trans (scan_done revents n (i + 1)) |>.symm
      · rfl
    · simp only [List.range'_succ, List.countP_cons, List.filterMap_cons, hr, ne_eq, not_false_eq_true, decide_true,
        ↓reduceIte, Nat.succ_ne_zero, Nat.add_sub_cancel, List.cons.injEq, true_and]
      exact ih (i + 1)

end Polls

theorem Legal.cases {nev : Events} (h : Legal nev) :
    nev = 0 ∨ nev = evRead ∨ nev = evWrite ∨ nev = evRead ||| evWrite := by
  have hle : (nev &&& (evRead ||| evWrite)).toNat ≤ 3 := by
    rw [BitVec.toNat_and]
    exact Nat.and_le_right
  have hself : nev &&& (evRead ||| evWrite) = nev := by
    have hsplit : nev &&& (evRead ||| evWrite) ||| nev &&& ~~~(evRead ||| evWrite) = nev := by
      rw [← BitVec.and_or_distrib_left, BitVec.or_not_self, BitVec.and_allOnes]
    rw [show nev &&& ~~~(evRead ||| evWrite) = 0 from h] at hsplit
    exact (BitVec.or_zero (x := _)).symm.trans hsplit
  rw [hself] at hle
  have hcases : nev.toNat = 0 ∨ nev.toNat = 1 ∨ nev.toNat = 2 ∨ nev.toNat = 3 := by omega
  rcases hcases with h0 | h1 | h2 | h3
  · exact .inl (BitVec.eq_of_toNat_eq h0)
  · exact .inr (.inl (BitVec.eq_of_toNat_eq h1))
  · exact .inr (.inr (.inl (BitVec.eq_of_toNat_eq h2)))
  · exact .inr (.inr (.inr (BitVec.eq_of_toNat_eq h3)))

theorem ite_or_ne_zero {P Q : Prop} [Decidable P] [Decidable Q] :
    (if P then evWrite else 0) ||| (if Q then evRead else 0) ≠ 0 ↔ P ∨ Q := by
  by_cases hp : P
  · by_cases hq : Q
    · simp only [hp, hq, if_true, or_self, iff_true]
      decide
    · simp only [hp, hq, if_true, if_false, or_false, iff_true]
      decide
  · by_cases hq : Q
    · simp only [hp, hq, if_true, if_false, or_true, iff_true]
      decide
    · simp [hp, hq]

/-- Of one event the mask leaves all or nothing. -/
theorem ite_and_mask {nev ev : Events} {P Q : Prop} [Decidable P] [Decidable Q] (h : Legal nev)
    (hev : ev = evRead ∨ ev = evWrite) (hin : nev &&& ev ≠ 0 → (P ↔ Q)) (hout : nev &&& ev = 0 → ¬ Q) :
    (if P then ev else 0) &&& nev = if Q then ev else 0 := by
  by_cases hn : nev &&& ev = 0
  · rw [if_neg (hout hn)]
    split
    · rwa [BitVec.and_comm]
    · exact BitVec.zero_and
  · have hself : ev &&& nev = ev := by
      rcases hev with rfl | rfl
      · rcases h.cases with rfl | rfl | rfl | rfl
        · exact absurd rfl hn
        · decide
        · exact absurd rfl hn
        · decide
      · rcases h.cases with rfl | rfl | rfl | rfl
        · exact absurd rfl hn
        · exact absurd rfl hn
        · decide
        · decide
    simp only [hin hn]
    split
    · exact hself
    · exact BitVec.zero_and

namespace Ready

variable {hasRdhup : Bool} {k : Ready hasRdhup} {fd : ℕ} {nev : Events}

/-- What poll(2) was asked for or answers in any case, of what `poll_poll` looks at. -/
theorem asked_bits (hasRdhup : Bool) (h : Legal nev) :
    (Polls.pollEvents hasRdhup nev ||| pollerr ||| pollhup ||| pollnval) &&& (pollout ||| pollerr ||| pollhup) =
        (if nev &&& evWrite ≠ 0 then pollout else 0) ||| (pollerr ||| pollhup) ∧
      (Polls.pollEvents hasRdhup nev ||| pollerr ||| pollhup ||| pollnval) &&&
          (pollin ||| pollerr ||| pollhup ||| pollrdhup hasRdhup) =
        (if nev &&& evRead ≠ 0 then pollin ||| pollrdhup hasRdhup else 0) ||| (pollerr ||| pollhup) := by
  rcases h.cases with rfl | rfl | rfl | rfl <;> cases hasRdhup <;> decide

theorem pollTold_eq (h : Legal nev) (hnev : nev ≠ 0) : k.pollTold fd nev =
    (if nev &&& evWrite ≠ 0 ∧ k.bits fd &&& pollout ≠ 0 ∨ k.bits fd &&& (pollerr ||| pollhup) ≠ 0 then evWrite
      else 0) |||
      if nev &&& evRead ≠ 0 ∧ k.bits fd &&& pollin ≠ 0 ∨ k.bits fd &&& (pollerr ||| pollhup) ≠ 0 then evRead
      else 0 := by
  have hin : k.bits fd &&& (pollin ||| pollrdhup hasRdhup) ≠ 0 ↔ k.bits fd &&& pollin ≠ 0 := by
    rw [and_or_ne_zero]
    exact or_iff_left_of_imp (k.rdhup fd)
  obtain ⟨hwrite, hread⟩ := asked_bits hasRdhup h
  have hif : ∀ (c : Prop) [Decidable c] (bits : PollBits),
      k.bits fd &&& ((if c then bits else 0) ||| (pollerr ||| pollhup)) ≠ 0 ↔
        c ∧ k.bits fd &&& bits ≠ 0 ∨ k.bits fd &&& (pollerr ||| pollhup) ≠ 0 := by
    intro c _ bits
    rw [and_or_ne_zero]
    by_cases hc : c
    · simp [hc]
    · simp [hc]
  unfold pollTold Polls.pollBits answer
  rw [if_neg hnev, BitVec.and_assoc, BitVec.and_assoc, hwrite, hread]
  simp only [hif, hin]

theorem readable_iff : k.readable fd ↔ k.bits fd &&& pollin ≠ 0 ∨ k.bits fd &&& (pollerr ||| pollhup) ≠ 0 := by
  unfold readable
  rw [BitVec.or_assoc, and_or_ne_zero]

theorem writable_iff : k.writable fd ↔ k.bits fd &&& pollout ≠ 0 ∨ k.bits fd &&& pollerr ≠ 0 := and_or_ne_zero ..

/-- Without an error or a hang-up both report the same. -/
theorem told_agree (h : Legal nev) (hok : k.bits fd &&& (pollerr ||| pollhup) = 0) :
    k.pollTold fd nev = k.selectTold fd nev := by
  have herr : k.bits fd &&& pollerr = 0 := by
    by_contra hc
    exact (and_or_ne_zero ..).mpr (.inl hc) hok
  by_cases hnev : nev = 0
  · subst hnev
    simp [pollTold, selectTold]
  · rw [pollTold_eq h hnev, BitVec.or_comm]
    simp only [selectTold, readable_iff, writable_iff, hok, herr, ne_eq, not_true_eq_false, or_false]

/-- Of what the fd is watched for both report the same, unless it has hung up and is watched for writing. -/
theorem told_agree_masked (h : Legal nev) (hok : k.bits fd &&& pollhup = 0 ∨ nev &&& evWrite = 0) :
    k.pollTold fd nev &&& nev = k.selectTold fd nev := by
  by_cases hnev : nev = 0
  · subst hnev
    simp [pollTold, selectTold]
  · rw [pollTold_eq h hnev]
    simp only [selectTold, readable_iff, writable_iff]
    rw [BitVec.and_or_distrib_right, BitVec.or_comm]
    refine congrArg₂ (· ||| ·) (ite_and_mask h (.inl rfl) (fun hread => ?_) fun hread hc => hc.1 hread)
      (ite_and_mask h (.inr rfl) (fun hwrite => ?_) fun hwrite hc => hc.1 hwrite)
    · simp only [ne_eq, hread, not_false_eq_true, true_and]
    · have hhup : k.bits fd &&& pollhup = 0 := hok.resolve_right hwrite
      have heq : k.bits fd &&& (pollerr ||| pollhup) ≠ 0 ↔ k.bits fd &&& pollerr ≠ 0 := by
        rw [and_or_ne_zero, hhup]
        simp
      simp only [ne_eq, hwrite, not_false_eq_true, true_and, heq]

end Ready

namespace Polls

variable {hasRdhup : Bool} {p : Polls} {m : ℕ → Events} {k : Ready hasRdhup} {fd : ℕ}

theorem told_pollReport {fd' : ℕ} {r : PollBits} (hopen : r &&& pollnval = 0) :
    (pollReport hasRdhup fd' r).told fd = if fd' = fd then some (pollBits hasRdhup r) else none := by
  unfold pollReport
  rw [if_neg (not_not.mpr hopen)]
  rfl

/-- An open fd that has something in `revents` is told of. -/
theorem pollBits_ne_zero {nev : Events} (h : Legal nev) (hnev : nev ≠ 0) (hopen : k.bits fd &&& pollnval = 0) :
    k.pollTold fd nev ≠ 0 ↔ k.answer fd (pollEvents hasRdhup nev) ≠ 0 := by
  have hall : (pollEvents hasRdhup nev ||| pollerr ||| pollhup ||| pollnval) =
      (if nev &&& evWrite ≠ 0 then pollout else 0) |||
        (if nev &&& evRead ≠ 0 then pollin ||| pollrdhup hasRdhup else 0) |||
        (pollerr ||| pollhup) ||| pollnval := by
    unfold pollEvents
    simp only [BitVec.or_assoc]
    rw [← BitVec.or_assoc, BitVec.or_comm (if nev &&& evRead ≠ 0 then _ else _), BitVec.or_assoc]
  have hif : ∀ (c : Prop) [Decidable c] (bits : PollBits),
      k.bits fd &&& (if c then bits else 0) ≠ 0 ↔ c ∧ k.bits fd &&& bits ≠ 0 := by
    intro c _ bits
    by_cases hc : c <;> simp [hc]
  have hin : k.bits fd &&& (pollin ||| pollrdhup hasRdhup) ≠ 0 ↔ k.bits fd &&& pollin ≠ 0 := by
    rw [and_or_ne_zero]
    exact or_iff_left_of_imp (k.rdhup fd)
  unfold Ready.answer
  rw [hall, and_or_ne_zero, and_or_ne_zero, and_or_ne_zero, hif, hif, hin, k.pollTold_eq h hnev]
  rw [ite_or_ne_zero, hopen]
  tauto

/-- Each fd that is watched is reported once if it has something, and no other. -/
theorem Represents.told (h : p.Represents hasRdhup m) (hl : Legal (m fd))
    (hopen : ∀ fd, m fd ≠ 0 → k.bits fd &&& pollnval = 0) :
    (p.pollPoll hasRdhup (k.poll p)).filterMap (·.told fd) =
      if k.pollTold fd (m fd) ≠ 0 then [k.pollTold fd (m fd)] else [] := by
  have hanswer : ∀ i < p.pollcnt, k.poll p i &&& pollnval = 0 := by
    intro i hi
    unfold Ready.poll Ready.answer
    rw [BitVec.and_assoc, BitVec.and_comm _ pollnval, ← BitVec.and_assoc, hopen _ (h.entry i hi).2.2.1]
    exact BitVec.zero_and
  unfold pollPoll
  rw [scan_eq, List.filterMap_filterMap]
  by_cases hm : m fd = 0
  · have hzero : k.pollTold fd (m fd) = 0 := if_pos hm
    rw [if_neg (not_not.mpr hzero)]
    refine List.filterMap_eq_nil_iff.mpr fun i hi => ?_
    have hlt : i < p.pollcnt := by simpa using hi
    split
    · rw [Option.bind_some, told_pollReport (hanswer i hlt)]
      refine if_neg fun he => (h.entry i hlt).2.2.1 ?_
      rw [he]
      exact hm
    · rfl
  · obtain ⟨hmax, hpos⟩ := h.watched fd hm
    obtain ⟨hlt, hfd⟩ := h.place fd hmax hpos
    generalize (p.pollidxs fd).toNat = idx at hlt hfd
    have hpoll : k.poll p idx = k.answer fd (pollEvents hasRdhup (m fd)) := by
      unfold Ready.poll
      rw [(h.entry idx hlt).2.2.2, hfd]
    have htold : k.pollTold fd (m fd) = pollBits hasRdhup (k.poll p idx) := by
      rw [hpoll]
      exact if_neg hm
    rw [filterMap_unique (a := idx) List.nodup_range' (by simpa using hlt)]
    · have hiff := pollBits_ne_zero (k := k) hl hm (hopen fd hm)
      rw [← hpoll] at hiff
      by_cases hr : k.poll p idx = 0
      · have hno : ¬ k.pollTold fd (m fd) ≠ 0 := fun hc => (hiff.mp hc) hr
        rw [if_neg hno, if_neg (not_not.mpr hr)]
        rfl
      · rw [if_pos (hiff.mpr hr), if_pos hr, Option.bind_some, told_pollReport (hanswer idx hlt), if_pos hfd, htold]
        rfl
    · intro i hi hne
      have hlt' : i < p.pollcnt := by simpa using hi
      split
      · rw [Option.bind_some, told_pollReport (hanswer i hlt')]
        exact if_neg fun he => hne (h.inj hlt' hlt (he.trans hfd.symm))
      · rfl

end Polls

namespace Vecs

variable {hasRdhup : Bool} {n : ℕ} {v : Vecs n} {m : ℕ → Events} {k : Ready hasRdhup} {fd : ℕ}

theorem and_twoPow_ne_zero {x : BitVec n} {i : ℕ} (hi : i < n) : x &&& 1#n <<< i ≠ 0 ↔ x.getLsbD i = true := by
  rw [← BitVec.twoPow_eq, BitVec.and_twoPow]
  split
  · rename_i hx
    refine iff_of_true (fun hc => ?_) hx
    have hb : (BitVec.twoPow n i).getLsbD i = true := by
      rw [BitVec.getLsbD_twoPow]
      simp [hi]
    rw [hc] at hb
    simp at hb
  · rename_i hx
    exact iff_of_false (fun hc => hc rfl) hx

/-- Words without a bit need no case of their own. -/
theorem selectWord_eq (word : ℕ) (wordR wordW : BitVec n) : selectWord word wordR wordW =
    (List.range n).reverse.filterMap fun bit =>
      let mask := 1#n <<< bit
      let events := (if wordR &&& mask ≠ 0 then evRead else 0) ||| if wordW &&& mask ≠ 0 then evWrite else 0
      if events ≠ 0 then some (.event (word * n + bit) events) else none := by
  unfold selectWord
  split
  · rfl
  · rename_i hz
    obtain ⟨hr, hw⟩ : wordR = 0 ∧ wordW = 0 := by
      rw [not_or, not_not, not_not] at hz
      exact hz
    refine (List.filterMap_eq_nil_iff.mpr fun i _ => ?_).symm
    simp [hr, hw]

/-- As `Polls.Represents.told`. -/
theorem Represents.told (h : v.Represents m) (hn : 0 < n) :
    (v.selectPoll (Ready.select v.vecRi k.readable) (Ready.select v.vecWi k.writable)).filterMap (·.told fd) =
      if k.selectTold fd (m fd) ≠ 0 then [k.selectTold fd (m fd)] else [] := by
  have hselect : ∀ (vec : ℕ → BitVec n) (ready : ℕ → Prop) [DecidablePred ready] (word i : ℕ), i < n →
      (Ready.select vec ready word &&& 1#n <<< i ≠ 0 ↔ (vec word).getLsbD i = true ∧ ready (word * n + i)) := by
    intro vec ready _ word i hi
    rw [and_twoPow_ne_zero hi]
    unfold Ready.select
    rw [BitVec.getLsbD_ofFnLE, dif_pos hi]
    simp
  -- the events of one bit of a word in range
  have hbit : ∀ word i, word < v.vecMax → i < n →
      ((if Ready.select v.vecRi k.readable word &&& 1#n <<< i ≠ 0 then evRead else 0) |||
        if Ready.select v.vecWi k.writable word &&& 1#n <<< i ≠ 0 then evWrite else 0) =
      k.selectTold (word * n + i) (m (word * n + i)) := by
    intro word i hword hi
    obtain ⟨hdiv, hmod⟩ : (word * n + i) / n = word ∧ (word * n + i) % n = i := by
      rw [Nat.mul_comm, Nat.mul_add_div hn, Nat.mul_add_mod, Nat.div_eq_of_lt hi, Nat.mod_eq_of_lt hi]
      exact ⟨rfl, rfl⟩
    have hr := h.read (word * n + i)
    have hw := h.write (word * n + i)
    unfold bit at hr hw
    rw [hdiv, hmod, and_iff_right hword] at hr hw
    simp only [hselect _ _ _ _ hi, hr, hw]
    rfl
  have hword : ∀ word < v.vecMax, (selectWord word (Ready.select v.vecRi k.readable word)
      (Ready.select v.vecWi k.writable word)).filterMap (·.told fd) =
        if word = fd / n ∧ k.selectTold fd (m fd) ≠ 0 then [k.selectTold fd (m fd)] else [] := by
    intro word hlt
    have htold : ∀ i < n, Option.bind
        (let mask := 1#n <<< i
          let events := (if Ready.select v.vecRi k.readable word &&& mask ≠ 0 then evRead else 0) |||
            if Ready.select v.vecWi k.writable word &&& mask ≠ 0 then evWrite else 0
          if events ≠ 0 then some (Report.event (word * n + i) events) else none) (·.told fd) =
        if word * n + i = fd ∧ k.selectTold fd (m fd) ≠ 0 then some (k.selectTold fd (m fd)) else none := by
      intro i hi
      dsimp only
      rw [hbit word i hlt hi]
      by_cases he : word * n + i = fd
      · rw [he]
        generalize k.selectTold fd (m fd) = x
        by_cases hz : x = 0
        · rw [if_neg (not_not.mpr hz), if_neg fun hc => hc.2 hz]
          rfl
        · rw [if_pos hz, if_pos ⟨rfl, hz⟩]
          exact if_pos rfl
      · refine Eq.trans ?_ (if_neg fun hc => he hc.1).symm
        split
        · exact if_neg he
        · rfl
    rw [selectWord_eq, List.filterMap_filterMap]
    by_cases hw : word = fd / n
    · subst hw
      have hfd : fd / n * n + fd % n = fd := Nat.div_add_mod' fd n
      rw [filterMap_unique (a := fd % n) (List.nodup_reverse.mpr List.nodup_range) (by simpa using Nat.mod_lt fd hn),
        htold _ (Nat.mod_lt fd hn)]
      · by_cases hz : k.selectTold fd (m fd) = 0
        · rw [if_neg fun hc => hc.2 hz, if_neg fun hc => hc.2 hz]
          rfl
        · rw [if_pos ⟨hfd, hz⟩, if_pos ⟨rfl, hz⟩]
          rfl
      · intro i hi hne
        have hin : i < n := by simpa using hi
        rw [htold i hin]
        refine if_neg fun hc => hne ?_
        have hmod := congrArg (· % n) hc.1
        simpa [Nat.mod_eq_of_lt hin, Nat.mul_comm] using hmod
    · rw [if_neg fun hc => hw hc.1]
      refine List.filterMap_eq_nil_iff.mpr fun i hi => ?_
      have hin : i < n := by simpa using hi
      rw [htold i hin]
      refine if_neg fun hc => hw ?_
      rw [← hc.1, Nat.mul_comm, Nat.mul_add_div hn, Nat.div_eq_of_lt hin, Nat.add_zero]
  unfold selectPoll
  rw [List.filterMap_flatMap]
  by_cases hin : fd / n < v.vecMax
  · rw [flatMap_unique (a := fd / n) (List.nodup_reverse.mpr List.nodup_range) (by simpa using hin), hword _ hin]
    · simp
    · intro word hmem hne
      rw [hword word (by simpa using hmem), if_neg fun hc => hne hc.1]
  · -- a bit that no word has is not watched
    have hr : m fd &&& evRead = 0 := by
      by_contra hc
      exact hin ((h.read fd).mpr hc).1
    have hw : m fd &&& evWrite = 0 := by
      by_contra hc
      exact hin ((h.write fd).mpr hc).1
    have hzero : k.selectTold fd (m fd) = 0 := by simp [Ready.selectTold, hr, hw]
    rw [if_neg (not_not.mpr hzero)]
    refine List.flatMap_eq_nil_iff.mpr fun word hmem => ?_
    have hlt : word < v.vecMax := by simpa using hmem
    have hne : ¬(word = fd / n ∧ k.selectTold fd (m fd) ≠ 0) := fun hc => hin (hc.1 ▸ hlt)
    rw [hword word hlt, if_neg hne]

end Vecs

/-! ### Both -/

/-- The two backends told of the same changes, and what the fds are watched for. -/
structure Watching (n : ℕ) where
  polls : Polls
  vecs : Vecs n
  mask : ℕ → Events

namespace Watching

variable (hasRdhup : Bool) {n : ℕ}

def init : Watching n := ⟨.init, .init, fun _ => 0⟩

/-- `backend_modify (fd, oev, nev)`, where `oev` is what the fd was watched for. -/
def step (s : Watching n) (a : ℕ × Events) : Option (Watching n) :=
  if a.1 < intMax ∧ Legal a.2 then
    (s.polls.pollModify hasRdhup a.1 (s.mask a.1) a.2).map fun polls =>
      ⟨polls, s.vecs.selectModify a.1 (s.mask a.1) a.2, Function.update s.mask a.1 a.2⟩
  else none

abbrev Runs (s : Watching n) (acts : List (ℕ × Events)) (t : Watching n) : Prop :=
  Run (fun s a t => step hasRdhup s a = some t) s acts t

/-- The kernel is asked by poll(2) for this bit of this fd. -/
def AsksPoll (s : Watching n) (fd : ℕ) (bit : PollBits) : Prop :=
  ∃ i < s.polls.pollcnt, (s.polls.polls i).fd = fd ∧ (s.polls.polls i).events &&& bit ≠ 0

/-- The kernel is asked by select(2) for this fd in this vector. -/
def AsksSelect (s : Watching n) (vec : ℕ → BitVec n) (fd : ℕ) : Prop :=
  fd / n < s.vecs.vecMax ∧ Vecs.bit vec fd = true

/-- Both stand for the masks, and these are what a watcher may ask for. -/
structure Kept (s : Watching n) : Prop where
  polls : s.polls.Represents hasRdhup s.mask
  vecs : s.vecs.Represents s.mask
  legal : ∀ fd, Legal (s.mask fd)

variable {hasRdhup} {s t : Watching n} {acts : List (ℕ × Events)}

theorem kept_init : Kept hasRdhup (init : Watching n) :=
  ⟨Polls.represents_init, Vecs.represents_init, fun _ => BitVec.zero_and⟩

/-- No assertion of `poll_modify` fails. -/
theorem Kept.step (hn : 0 < n) (h : Kept hasRdhup s) {a : ℕ × Events} (ha : a.1 < intMax) (hl : Legal a.2) :
    ∃ t, Watching.step hasRdhup s a = some t ∧ Kept hasRdhup t := by
  obtain ⟨q, hq, hrep⟩ := h.polls.pollModify ha a.2
  refine ⟨⟨q, s.vecs.selectModify a.1 (s.mask a.1) a.2, Function.update s.mask a.1 a.2⟩, ?_, hrep,
    h.vecs.selectModify hn a.1 a.2, fun fd => ?_⟩
  · rw [Watching.step, if_pos ⟨ha, hl⟩, hq]
    rfl
  · show Legal (Function.update s.mask a.1 a.2 fd)
    rw [Function.update_apply]
    split
    · exact hl
    · exact h.legal fd

theorem kept_run (hn : 0 < n) (hrun : Runs hasRdhup (init : Watching n) acts s) : Kept hasRdhup s := by
  refine Run.invariant (fun s a t h hs => ?_) hrun kept_init
  have hguard : a.1 < intMax ∧ Legal a.2 := by
    by_contra hno
    rw [Watching.step, if_neg hno] at hs
    cases hs
  obtain ⟨t', ht', hk⟩ := h.step hn hguard.1 hguard.2
  rw [ht'] at hs
  cases hs
  exact hk

/-- The same set is handed to the kernel. -/
theorem Kept.asks (h : Kept hasRdhup s) (fd : ℕ) :
    (s.AsksPoll fd pollin ↔ s.mask fd &&& evRead ≠ 0) ∧ (s.AsksPoll fd pollout ↔ s.mask fd &&& evWrite ≠ 0) ∧
      (s.AsksSelect s.vecs.vecRi fd ↔ s.mask fd &&& evRead ≠ 0) ∧
      (s.AsksSelect s.vecs.vecWi fd ↔ s.mask fd &&& evWrite ≠ 0) := by
  have hpoll : ∀ (bit : PollBits) (ev : Events), (∀ nev, Legal nev → (Polls.pollEvents hasRdhup nev &&& bit ≠ 0 ↔
      nev &&& ev ≠ 0)) → (s.AsksPoll fd bit ↔ s.mask fd &&& ev ≠ 0) := by
    intro bit ev hbits
    constructor
    · rintro ⟨i, hi, rfl, hbit⟩
      rwa [(h.polls.entry i hi).2.2.2, hbits _ (h.legal _)] at hbit
    · intro hm
      have hne : s.mask fd ≠ 0 := by
        intro hc
        rw [hc] at hm
        exact hm BitVec.zero_and
      obtain ⟨hmax, hpos⟩ := h.polls.watched fd hne
      obtain ⟨hlt, hfd⟩ := h.polls.place fd hmax hpos
      refine ⟨_, hlt, hfd, ?_⟩
      rw [(h.polls.entry _ hlt).2.2.2, hfd, hbits _ (h.legal _)]
      exact hm
  refine ⟨hpoll _ _ fun nev hl => ?_, hpoll _ _ fun nev hl => ?_, h.vecs.read fd, h.vecs.write fd⟩
  · rcases hl.cases with rfl | rfl | rfl | rfl <;> cases hasRdhup <;> decide
  · rcases hl.cases with rfl | rfl | rfl | rfl <;> cases hasRdhup <;> decide

/-- **The poll and select sets.** After any changes the entries of the one and the vectors of the other stand for
what the fds are watched for, no assertion fails, and both ask the kernel for the same. Whatever open fds are
ready for, each reports a watched one once if it has something to report and never another, and both the same events,
unless the fd has an error or has hung up; of the events it is watched for they report the same with an error as
well, and with a hang-up if it is not watched for writing. -/
theorem poll_select_sets (hn : 0 < n) (hrun : Runs hasRdhup (init : Watching n) acts s) :
    s.polls.Represents hasRdhup s.mask ∧ s.vecs.Represents s.mask ∧
    (∀ a : ℕ × Events, a.1 < intMax → Legal a.2 → ∃ t, Watching.step hasRdhup s a = some t) ∧
    (∀ fd, (s.AsksPoll fd pollin ↔ s.AsksSelect s.vecs.vecRi fd) ∧
      (s.AsksPoll fd pollout ↔ s.AsksSelect s.vecs.vecWi fd)) ∧
    ∀ k : Ready hasRdhup, (∀ fd, s.mask fd ≠ 0 → k.bits fd &&& pollnval = 0) → ∀ fd,
      (s.polls.pollPoll hasRdhup (k.poll s.polls)).filterMap (·.told fd) =
        (if k.pollTold fd (s.mask fd) ≠ 0 then [k.pollTold fd (s.mask fd)] else []) ∧
      (s.vecs.selectPoll (Ready.select s.vecs.vecRi k.readable) (Ready.select s.vecs.vecWi k.writable)).filterMap
          (·.told fd) = (if k.selectTold fd (s.mask fd) ≠ 0 then [k.selectTold fd (s.mask fd)] else []) ∧
      (k.bits fd &&& (pollerr ||| pollhup) = 0 → k.pollTold fd (s.mask fd) = k.selectTold fd (s.mask fd)) ∧
      (k.bits fd &&& pollhup = 0 ∨ s.mask fd &&& evWrite = 0 →
        k.pollTold fd (s.mask fd) &&& s.mask fd = k.selectTold fd (s.mask fd)) := by
  have h := kept_run hn hrun
  refine ⟨h.polls, h.vecs, fun a ha hl => ?_, fun fd => ?_, fun k hopen fd => ⟨?_, ?_, ?_, ?_⟩⟩
  · obtain ⟨t, ht, -⟩ := h.step hn ha hl
    exact ⟨t, ht⟩
  · obtain ⟨h₁, h₂, h₃, h₄⟩ := h.asks fd
    exact ⟨h₁.trans h₃.symm, h₂.trans h₄.symm⟩
  · exact h.polls.told (h.legal fd) hopen
  · exact h.vecs.told hn
  · exact Ready.told_agree (h.legal fd)
  · exact Ready.told_agree_masked (h.legal fd)

/-- The fd 3 is watched for both, the fd 70 for reading, and the fd 3 no more. -/
def three : List (ℕ × Events) := [(3, evRead ||| evWrite), (70, evRead), (3, 0)]

/-- The fd 70 has an error. -/
def failed : Ready true := ⟨fun fd => if fd = 70 then pollerr else 0, fun fd => by split <;> decide⟩

theorem poll_select_sets_three : ∃ s : Watching 64, Runs true init three s ∧
    (s.AsksPoll 70 pollin ↔ s.AsksSelect s.vecs.vecRi 70) ∧
    (s.polls.pollPoll true (failed.poll s.polls)).filterMap (·.told 70) = [evRead ||| evWrite] := by
  have hx : (execFrom (step true) (init : Watching 64) three).map (fun s => s.mask 70) = some evRead := by
    decide +kernel
  obtain ⟨s, hs, hmask⟩ := Option.map_eq_some_iff.mp hx
  have hrun := Run.iff_execFrom.mpr hs
  obtain ⟨-, -, -, hasks, htold⟩ := poll_select_sets (by decide : 0 < 64) hrun
  have hopen : ∀ fd, s.mask fd ≠ 0 → failed.bits fd &&& pollnval = 0 := by
    intro fd _
    show (if fd = 70 then pollerr else 0) &&& pollnval = 0
    split <;> decide
  obtain ⟨hpoll, -⟩ := htold failed hopen 70
  refine ⟨s, hrun, (hasks 70).1, hpoll.trans ?_⟩
  rw [hmask]
  decide +kernel

/-- With an error on an fd that is watched for reading, poll reports both events and select one. -/
theorem poll_select_differ : ∃ s : Watching 64, Runs true init three s ∧
    (s.polls.pollPoll true (failed.poll s.polls)).filterMap (·.told 70) = [evRead ||| evWrite] ∧
    (s.vecs.selectPoll (Ready.select s.vecs.vecRi failed.readable)
      (Ready.select s.vecs.vecWi failed.writable)).filterMap (·.told 70) = [evRead] := by
  have hx : (execFrom (step true) (init : Watching 64) three).map (fun s =>
      ((s.polls.pollPoll true (failed.poll s.polls)).filterMap (·.told 70),
        (s.vecs.selectPoll (Ready.select s.vecs.vecRi failed.readable)
          (Ready.select s.vecs.vecWi failed.writable)).filterMap (·.told 70))) =
      some ([evRead ||| evWrite], [evRead]) := by
    decide +kernel
  obtain ⟨s, hs, htold⟩ := Option.map_eq_some_iff.mp hx
  exact ⟨s, Run.iff_execFrom.mpr hs, (Prod.mk.inj htold).1, (Prod.mk.inj htold).2⟩

end Watching

end Qev
