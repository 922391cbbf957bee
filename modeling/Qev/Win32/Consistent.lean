/-
# The registry stays consistent

The four structures of the registry agree (`OkBut`): chains and table lead to the same
entries, and every index below the next one is in use, free, or taken out by the call
that is going on. Each part of a call keeps that and has a result, so no sequence of
calls, whichever allocations fail, writes past a table (`registry_consistent`).
-/
import Qev.Win32.Registry

namespace Qev
namespace Win32

open Lib

namespace Registry

variable {r r' : Registry} {out : List ℕ} {fd p : ℕ} {e : Entry} {a : Alloc}

/-- The indices given back. -/
def freed (r : Registry) : List ℕ := r.free.take r.freecnt

/-- The registry is consistent, with the indices in `out` neither in use nor free. -/
structure OkBut (out : List ℕ) (r : Registry) : Prop where
  byFd_length : r.byFd.length = r.byFdmax
  free_length : r.free.length = r.freemax
  freecnt_le : r.freecnt + out.length ≤ r.next
  next_le : r.next ≤ r.byFdmax
  byFdmax_le : r.byFdmax ≤ r.freemax
  freemax_le : r.freemax ≤ intMax
  table : ∀ fd p, r.byFd[fd]? = some (some p) ↔ ∃ e, r.heap p = some e ∧ e.fd = fd
  chain : ∀ b p, p ∈ r.buckets b ↔ ∃ e, r.heap p = some e ∧ fdHash e.handle = b
  chain_nodup : ∀ b, (r.buckets b).Nodup
  handles : ∀ p p' e e', r.heap p = some e → r.heap p' = some e' → e.handle = e'.handle → p = p'
  free_nodup : (r.freed ++ out).Nodup
  partition : ∀ fd, fd < r.next ↔ fd ∈ r.freed ++ out ∨ ∃ p e, r.heap p = some e ∧ e.fd = fd
  apart : ∀ fd ∈ r.freed ++ out, ∀ p e, r.heap p = some e → e.fd ≠ fd

abbrev Ok (r : Registry) : Prop := OkBut [] r

theorem ok_init : init.Ok := by
  refine ⟨rfl, rfl, le_rfl, le_rfl, le_rfl, Nat.zero_le _, ?_, ?_, fun _ => List.nodup_nil, ?_, List.nodup_nil, ?_, ?_⟩
  all_goals simp [init, freed]

theorem OkBut.fds (h : OkBut out r) {p p' : ℕ} {e e' : Entry} (he : r.heap p = some e) (he' : r.heap p' = some e')
    (hfd : e.fd = e'.fd) : p = p' := by
  have h1 := (h.table e.fd p).mpr ⟨e, he, rfl⟩
  have h2 := (h.table e.fd p').mpr ⟨e', he', hfd.symm⟩
  rw [h1] at h2
  simpa using h2

theorem OkBut.lt_next (h : OkBut out r) (he : r.heap p = some e) : e.fd < r.next :=
  (h.partition e.fd).mpr (.inr ⟨p, e, he, rfl⟩)

theorem OkBut.congr (h : OkBut out r) (hlen : r'.byFd = r.byFd ∧ r'.free = r.free ∧ r'.byFdmax = r.byFdmax ∧
    r'.freemax = r.freemax ∧ r'.freecnt = r.freecnt ∧ r'.next = r.next ∧ r'.buckets = r.buckets ∧ r'.heap = r.heap) :
    OkBut out r' := by
  obtain ⟨ready, buckets, byFd, free, byFdmax, freemax, freecnt, next, heap⟩ := r
  obtain ⟨ready', buckets', byFd', free', byFdmax', freemax', freecnt', next', heap'⟩ := r'
  obtain ⟨h1, h2, h3, h4, h5, h6, h7, h8⟩ := hlen
  dsimp only at h1 h2 h3 h4 h5 h6 h7 h8
  subst h1 h2 h3 h4 h5 h6 h7 h8
  exact ⟨h.1, h.2, h.3, h.4, h.5, h.6, h.7, h.8, h.9, h.10, h.11, h.12, h.13⟩

theorem fdInit_eq (h : r.fdInit a = some r') : r' = { r with ready := r'.ready } := by
  unfold fdInit at h
  split at h
  · cases h
    rfl
  · split at h
    · cases h
      rfl
    · cases h

theorem OkBut.fdInit (hr : OkBut out r) (h : r.fdInit a = some r') : OkBut out r' ∧ r'.heap = r.heap := by
  rw [fdInit_eq h]
  exact ⟨hr.congr ⟨rfl, rfl, rfl, rfl, rfl, rfl, rfl, rfl⟩, rfl⟩

/-! ### Growth -/

theorem lt_newmaxFrom (fd newmax : ℕ) (hpos : 0 < newmax) (hfd : fd < intMax) : fd < newmaxFrom fd newmax := by
  rw [newmaxFrom]
  split
  · rename_i h
    exact lt_newmaxFrom fd _ (by unfold intMax; split <;> omega) hfd
  · rename_i h
    omega
termination_by intMax - newmax
decreasing_by
  unfold intMax at *
  split <;> omega

theorem newmaxFrom_le (fd newmax : ℕ) (hle : newmax ≤ intMax) :
    newmax ≤ newmaxFrom fd newmax ∧ newmaxFrom fd newmax ≤ intMax := by
  rw [newmaxFrom]
  split
  · rename_i h
    obtain ⟨h1, h2⟩ := newmaxFrom_le fd (if intMax / 2 < newmax then intMax else newmax * 2)
      (by unfold intMax at *; split <;> omega)
    refine ⟨le_trans ?_ h1, h2⟩
    split
    · exact hle
    · omega
  · exact ⟨le_rfl, hle⟩
termination_by intMax - newmax
decreasing_by
  unfold intMax at *
  split <;> omega

/-- The free list grows: only cells behind those in use are new. -/
theorem OkBut.growFree (h : OkBut out r) (l : List ℕ) (n : ℕ) (hlen : l.length = n - r.freemax)
    (hn : r.freemax ≤ n) (hle : n ≤ intMax) :
    OkBut out { r with free := r.free ++ l, freemax := n } := by
  have hfree : (r.free ++ l).take r.freecnt = r.freed := by
    have h1 := h.freecnt_le
    have h2 := h.next_le
    have h3 := h.byFdmax_le
    have h4 := h.free_length
    rw [List.take_append_of_le_length (by omega)]
    rfl
  refine ⟨h.byFd_length, ?_, h.freecnt_le, h.next_le, h.byFdmax_le.trans hn, hle, h.table, h.chain, h.chain_nodup,
    h.handles, ?_, ?_, ?_⟩
  · rw [List.length_append, h.free_length, hlen]
    exact Nat.add_sub_cancel' hn
  all_goals
    unfold freed
    rw [hfree]
  · exact h.free_nodup
  · exact h.partition
  · exact h.apart

/-- The table grows by cells that hold nothing. -/
theorem OkBut.growByFd (h : OkBut out r) (n : ℕ) (hn : r.byFdmax ≤ n) (hle : n ≤ r.freemax) :
    OkBut out { r with byFd := r.byFd ++ List.replicate (n - r.byFdmax) none, byFdmax := n } := by
  refine ⟨?_, h.free_length, h.freecnt_le, h.next_le.trans hn, hle, h.freemax_le, fun fd p => ?_, h.chain,
    h.chain_nodup, h.handles, h.free_nodup, h.partition, h.apart⟩
  · rw [List.length_append, h.byFd_length, List.length_replicate]
    exact Nat.add_sub_cancel' hn
  · rw [← h.table fd p]
    by_cases hlt : fd < r.byFd.length
    · rw [List.getElem?_append_left hlt]
    · rw [List.getElem?_append_right (by omega), List.getElem?_eq_none (l := r.byFd) (by omega),
        List.getElem?_replicate]
      split <;> simp

theorem OkBut.fdReserve (h : OkBut out r) (fd : ℕ) (a : Alloc) (hfd : fd ≤ r.next) :
    OkBut out (r.fdReserve fd a).1 ∧ (r.fdReserve fd a).1.heap = r.heap ∧
      (r.fdReserve fd a).1.buckets = r.buckets ∧ (r.fdReserve fd a).1.next = r.next ∧
      (r.fdReserve fd a).1.freecnt = r.freecnt ∧
      ((r.fdReserve fd a).2 = .ok () → fd < (r.fdReserve fd a).1.byFdmax) := by
  have hbounds : r.byFdmax ≤ intMax := h.byFdmax_le.trans h.freemax_le
  unfold Registry.fdReserve
  split
  · rename_i hlt
    exact ⟨h, rfl, rfl, rfl, rfl, fun _ => hlt⟩
  · rename_i hge
    split
    · exact ⟨h, rfl, rfl, rfl, rfl, fun he => by cases he⟩
    · rename_i hne
      have hlt : fd < intMax := by
        have := h.next_le
        omega
      have h0 : 0 < (if r.byFdmax = 0 then 64 else r.byFdmax) := by
        split <;> omega
      have hstart : (if r.byFdmax = 0 then 64 else r.byFdmax) ≤ intMax := by
        split
        · unfold intMax
          omega
        · exact hbounds
      have hnew := lt_newmaxFrom fd _ h0 hlt
      obtain ⟨-, hmax⟩ := newmaxFrom_le fd _ hstart
      dsimp only
      generalize newmaxFrom fd (if r.byFdmax = 0 then 64 else r.byFdmax) = newmax at hnew hmax ⊢
      obtain ⟨r₁, hr₁, hok₁, hf₁, hsame⟩ : ∃ r₁ : Option Registry,
          r₁ = (if r.freemax < newmax then a.free.map fun g =>
            { r with free := r.free ++ (List.range' r.freemax (newmax - r.freemax)).map g, freemax := newmax }
          else some r) ∧ (∀ r₂ ∈ r₁, OkBut out r₂) ∧ (∀ r₂ ∈ r₁, newmax ≤ r₂.freemax) ∧
          ∀ r₂ ∈ r₁, r₂.heap = r.heap ∧ r₂.buckets = r.buckets ∧ r₂.next = r.next ∧ r₂.freecnt = r.freecnt ∧
            r₂.byFdmax = r.byFdmax := by
        refine ⟨_, rfl, ?_, ?_, ?_⟩
        all_goals
          intro r₂ hr₂
          split at hr₂
        · rename_i hgrow
          obtain ⟨g, -, rfl⟩ := Option.map_eq_some_iff.mp hr₂
          exact h.growFree _ newmax (by simp) hgrow.le hmax
        · cases hr₂
          exact h
        · obtain ⟨g, -, rfl⟩ := Option.map_eq_some_iff.mp hr₂
          exact le_rfl
        · rename_i hgrow
          cases hr₂
          omega
        · obtain ⟨g, -, rfl⟩ := Option.map_eq_some_iff.mp hr₂
          exact ⟨rfl, rfl, rfl, rfl, rfl⟩
        · cases hr₂
          exact ⟨rfl, rfl, rfl, rfl, rfl⟩
      rw [← hr₁]
      cases r₁ with
      | none => exact ⟨h, rfl, rfl, rfl, rfl, fun he => by cases he⟩
      | some r₂ =>
        obtain ⟨e1, e2, e3, e4, e5⟩ := hsame r₂ rfl
        dsimp only
        split
        · refine ⟨(hok₁ r₂ rfl).growByFd newmax (by omega) (hf₁ r₂ rfl), e1, e2, e3, e4, fun _ => hnew⟩
        · exact ⟨hok₁ r₂ rfl, e1, e2, e3, e4, fun he => by cases he⟩

/-! ### Indices -/

theorem OkBut.freed_length (h : OkBut out r) : r.freed.length = r.freecnt := by
  have h1 := h.freecnt_le
  have h2 := h.next_le
  have h3 := h.byFdmax_le
  have h4 := h.free_length
  unfold freed
  rw [List.length_take]
  omega

/-- An index is taken out: the last one given back, or the next one never given out. -/
theorem OkBut.fdAlloc (h : r.Ok) (hroom : r.freecnt = 0 → r.next < r.byFdmax) :
    ∃ fd r', r.fdAlloc = some (fd, r') ∧ OkBut [fd] r' ∧ r'.heap = r.heap ∧ r.next ≤ r'.next := by
  have hlen := h.freed_length
  have hflen : r.freecnt ≤ r.free.length := by
    have h1 := h.freecnt_le
    have h2 := h.next_le
    have h3 := h.byFdmax_le
    have h4 := h.free_length
    simp only [List.length_nil] at h1
    omega
  unfold Registry.fdAlloc
  by_cases h0 : r.freecnt = 0
  · rw [if_neg (by omega)]
    have hnil : r.freed = [] := List.eq_nil_of_length_eq_zero (hlen.trans h0)
    have hfree : ({ r with next := r.next + 1 } : Registry).freed = [] := hnil
    have hpart := h.partition
    rw [hnil] at hpart
    refine ⟨r.next, _, rfl, ?_, rfl, Nat.le_succ _⟩
    refine ⟨h.byFd_length, h.free_length, ?_, hroom h0, h.byFdmax_le, h.freemax_le, h.table, h.chain, h.chain_nodup,
      h.handles, ?_, fun fd => ?_, fun fd hfd p e he => ?_⟩
    · simp [h0]
    · rw [hfree]
      exact List.nodup_singleton _
    · have := hpart fd
      rw [hfree]
      simp only [List.nil_append, List.not_mem_nil, false_or, List.mem_singleton] at this ⊢
      rw [← this]
      omega
    · rw [hfree, List.nil_append, List.mem_singleton] at hfd
      have := h.lt_next he
      omega
  · rw [if_pos h0]
    have hlt : r.freecnt - 1 < r.free.length := by omega
    rw [List.getElem?_eq_getElem hlt]
    refine ⟨r.free[r.freecnt - 1], _, rfl, ?_, rfl, le_rfl⟩
    have hfree : r.free.take (r.freecnt - 1) ++ [r.free[r.freecnt - 1]] = r.freed := by
      unfold freed
      rw [List.take_append_getElem hlt]
      congr 1
      omega
    have hnd := h.free_nodup
    have hpart := h.partition
    have hap := h.apart
    rw [List.append_nil, ← hfree] at hnd hpart hap
    have hcnt := h.freecnt_le
    refine ⟨h.byFd_length, h.free_length, ?_, h.next_le, h.byFdmax_le, h.freemax_le, h.table, h.chain, h.chain_nodup,
      h.handles, hnd, hpart, hap⟩
    simp only [List.length_cons, List.length_nil] at hcnt ⊢
    omega

/-- An index goes back: the list has room for it. -/
theorem OkBut.pushFree (h : OkBut [fd] r) :
    ∃ r', r.pushFree fd = some r' ∧ r'.Ok ∧ r'.heap = r.heap ∧ r'.next = r.next := by
  have h1 := h.freecnt_le
  have h2 := h.next_le
  have h3 := h.byFdmax_le
  have h4 := h.free_length
  simp only [List.length_cons, List.length_nil] at h1
  unfold Registry.pushFree
  rw [if_pos ⟨by omega, by omega⟩]
  refine ⟨_, rfl, ?_, rfl, rfl⟩
  have hfree : (r.free.set r.freecnt fd).take (r.freecnt + 1) = r.freed ++ [fd] := by
    have hlt : r.freecnt < (r.free.set r.freecnt fd).length := by
      rw [List.length_set]
      omega
    rw [← List.take_append_getElem hlt, List.getElem_set_self, List.take_set_of_le le_rfl]
    rfl
  have hfreed : ∀ q : Registry, q.free = r.free.set r.freecnt fd → q.freecnt = r.freecnt + 1 →
      q.freed ++ [] = r.freed ++ [fd] := by
    intro q hq hc
    rw [List.append_nil, freed, hq, hc, hfree]
  refine ⟨h.byFd_length, by rw [List.length_set]; exact h4, by simp only [List.length_nil]; omega, h2, h3,
    h.freemax_le, h.table, h.chain, h.chain_nodup, h.handles, ?_, ?_, ?_⟩
  all_goals rw [hfreed _ rfl rfl]
  · exact h.free_nodup
  · exact h.partition
  · exact h.apart

/-! ### Entries -/

/-- The count of an entry changes, its index and handle do not. -/
theorem OkBut.recount (h : OkBut out r) (he : r.heap p = some e) (c : BitVec 32) :
    OkBut out (r.setEntry p (some { e with refcount := c })) := by
  have hex : ∀ (p' : ℕ) (Q : ℕ → Handle → Prop),
      (∃ e', (r.setEntry p (some { e with refcount := c })).heap p' = some e' ∧ Q e'.fd e'.handle) ↔
        ∃ e', r.heap p' = some e' ∧ Q e'.fd e'.handle := by
    intro p' Q
    by_cases hp : p' = p
    · subst hp
      simp [setEntry, he]
    · simp [setEntry, hp]
  refine ⟨h.byFd_length, h.free_length, h.freecnt_le, h.next_le, h.byFdmax_le, h.freemax_le, fun fd q => ?_,
    fun b q => ?_, h.chain_nodup, fun q q' e₁ e₂ h₁ h₂ heq => ?_, h.free_nodup, fun fd => ?_, fun fd hfd q e₁ h₁ heq => ?_⟩
  · rw [hex q fun f _ => f = fd]
    exact h.table fd q
  · rw [hex q fun _ k => fdHash k = b]
    exact h.chain b q
  · obtain ⟨e₁', h₁', k₁⟩ := (hex q fun _ k => k = e₁.handle).mp ⟨e₁, h₁, rfl⟩
    obtain ⟨e₂', h₂', k₂⟩ := (hex q' fun _ k => k = e₂.handle).mp ⟨e₂, h₂, rfl⟩
    exact h.handles q q' e₁' e₂' h₁' h₂' (by rw [k₁, k₂, heq])
  · rw [show (∃ q e₁, (r.setEntry p (some { e with refcount := c })).heap q = some e₁ ∧ e₁.fd = fd) ↔
        ∃ q e₁, r.heap q = some e₁ ∧ e₁.fd = fd from exists_congr fun q => hex q fun f _ => f = fd]
    exact h.partition fd
  · obtain ⟨e₁', h₁', k₁⟩ := (hex q fun f _ => f = fd).mp ⟨e₁, h₁, heq⟩
    exact h.apart fd hfd q e₁' h₁' k₁

/-- A new entry takes the index that is out. -/
theorem OkBut.insert (h : OkBut [e.fd] r) (hp : r.heap p = none) (hh : ∀ p' e', r.heap p' = some e' → e'.handle ≠ e.handle) :
    ∃ r', (((r.setEntry p (some e)).setBucket (fdHash e.handle) (p :: r.buckets (fdHash e.handle))).setByFd e.fd (some p)) =
      some r' ∧ r'.Ok ∧ r'.heap = Function.update r.heap p (some e) := by
  have hnext : e.fd < r.next := (h.partition e.fd).mpr (.inl (by simp))
  have hlt : e.fd < r.byFd.length := by
    rw [h.byFd_length]
    exact hnext.trans_le h.next_le
  have hdead : ∀ p' e', r.heap p' = some e' → p' ≠ p := by
    rintro p' e' he' rfl
    rw [hp] at he'
    cases he'
  have hheap : ∀ p' e', Function.update r.heap p (some e) p' = some e' ↔
      (p' = p ∧ e' = e) ∨ r.heap p' = some e' := by
    intro p' e'
    by_cases hp' : p' = p
    · subst hp'
      simp [hp, eq_comm]
    · simp [hp']
  unfold setByFd
  rw [if_pos (show e.fd < ((r.setEntry p (some e)).setBucket _ _).byFd.length from hlt)]
  refine ⟨_, rfl, ?_, rfl⟩
  have hcnt := h.freecnt_le
  simp only [List.length_cons, List.length_nil] at hcnt
  refine ⟨?_, h.free_length, ?_, h.next_le, h.byFdmax_le, h.freemax_le, fun fd q => ?_, fun b q => ?_, fun b => ?_,
    fun q q' e₁ e₂ h₁ h₂ heq => ?_, ?_, fun fd => ?_, fun fd hfd q e₁ h₁ => ?_⟩
  all_goals simp only [setEntry, setBucket] at *
  · rw [List.length_set]
    exact h.byFd_length
  · simp only [List.length_nil]
    omega
  · simp only [hheap]
    by_cases hfd : fd = e.fd
    · subst hfd
      rw [List.getElem?_set_self hlt]
      constructor
      · intro hq
        cases hq
        exact ⟨e, .inl ⟨rfl, rfl⟩, rfl⟩
      · rintro ⟨e', ⟨rfl, rfl⟩ | he', hfd⟩
        · rfl
        · exact absurd hfd (h.apart _ (by simp) _ _ he')
    · rw [List.getElem?_set_ne (Ne.symm hfd), h.table]
      constructor
      · rintro ⟨e', he', hfd'⟩
        exact ⟨e', .inr he', hfd'⟩
      · rintro ⟨e', ⟨rfl, rfl⟩ | he', hfd'⟩
        · exact absurd hfd'.symm hfd
        · exact ⟨e', he', hfd'⟩
  · simp only [hheap]
    have hc := h.chain b q
    by_cases hb : b = fdHash e.handle
    · subst hb
      rw [Function.update_self, List.mem_cons, hc]
      constructor
      · rintro (rfl | ⟨e', he', hb'⟩)
        · exact ⟨e, .inl ⟨rfl, rfl⟩, rfl⟩
        · exact ⟨e', .inr he', hb'⟩
      · rintro ⟨e', ⟨rfl, rfl⟩ | he', hb'⟩
        · exact .inl rfl
        · exact .inr ⟨e', he', hb'⟩
    · rw [Function.update_of_ne hb, hc]
      constructor
      · rintro ⟨e', he', hb'⟩
        exact ⟨e', .inr he', hb'⟩
      · rintro ⟨e', ⟨rfl, rfl⟩ | he', hb'⟩
        · exact absurd hb'.symm hb
        · exact ⟨e', he', hb'⟩
  · by_cases hb : b = fdHash e.handle
    · subst hb
      rw [Function.update_self, List.nodup_cons]
      refine ⟨fun hm => ?_, h.chain_nodup _⟩
      obtain ⟨e', he', -⟩ := (h.chain _ p).mp hm
      exact hdead _ _ he' rfl
    · rw [Function.update_of_ne hb]
      exact h.chain_nodup b
  · rcases (hheap q e₁).mp h₁ with ⟨rfl, rfl⟩ | h₁' <;> rcases (hheap q' e₂).mp h₂ with ⟨rfl, rfl⟩ | h₂'
    · rfl
    · exact absurd heq.symm (hh _ _ h₂')
    · exact absurd heq (hh _ _ h₁')
    · exact h.handles _ _ _ _ h₁' h₂' heq
  · rw [List.append_nil]
    exact (List.nodup_append.mp h.free_nodup).1
  · rw [h.partition fd]
    simp only [List.append_nil, List.mem_append, List.mem_singleton, hheap, freed]
    constructor
    · rintro ((hf | rfl) | ⟨q, e', he', hfd⟩)
      · exact .inl hf
      · exact .inr ⟨p, e, .inl ⟨rfl, rfl⟩, rfl⟩
      · exact .inr ⟨q, e', .inr he', hfd⟩
    · rintro (hf | ⟨q, e', ⟨rfl, rfl⟩ | he', hfd⟩)
      · exact .inl (.inl hf)
      · exact .inl (.inr hfd.symm)
      · exact .inr ⟨q, e', he', hfd⟩
  · rw [List.append_nil] at hfd
    rcases (hheap q e₁).mp h₁ with ⟨rfl, rfl⟩ | h₁'
    · rintro rfl
      exact (List.nodup_append.mp h.free_nodup).2.2 _ hfd _ (List.mem_singleton_self _) rfl
    · exact h.apart fd (List.mem_append_left _ hfd) q e₁ h₁'

/-- An entry goes, and its index is given back. -/
theorem OkBut.dropEntry (h : r.Ok) (he : r.heap p = some e) :
    ∃ r', r.dropEntry e.fd p e = some r' ∧ r'.Ok ∧ r'.heap = Function.update r.heap p none := by
  have hnext : e.fd < r.next := h.lt_next he
  have hlt : e.fd < r.byFd.length := by
    rw [h.byFd_length]
    exact hnext.trans_le h.next_le
  have hheap : ∀ p' e', Function.update r.heap p none p' = some e' ↔ p' ≠ p ∧ r.heap p' = some e' := by
    intro p' e'
    by_cases hp' : p' = p
    · subst hp'
      simp
    · simp [hp']
  have hother : ∀ p' e', r.heap p' = some e' → p' ≠ p → e'.fd ≠ e.fd :=
    fun p' e' he' hne hfd => hne (h.fds he' he hfd)
  have hnew : e.fd ∉ r.freed := fun hm => h.apart _ (List.mem_append_left _ hm) p e he rfl
  have hnd : (r.freed ++ [e.fd]).Nodup := by
    have h0 := h.free_nodup
    rw [List.append_nil] at h0
    refine List.nodup_append.mpr ⟨h0, List.nodup_singleton _, ?_⟩
    intro x hx y hy hxy
    rw [List.mem_singleton] at hy
    subst hy hxy
    exact hnew hx
  have hcnt : r.freecnt + 1 ≤ r.next := by
    have hsub : r.freed ++ [e.fd] ⊆ List.range r.next := by
      intro fd hfd
      rcases List.mem_append.mp hfd with hf | hf
      · exact List.mem_range.mpr ((h.partition fd).mpr (.inl (List.mem_append_left _ hf)))
      · rw [List.mem_singleton] at hf
        exact List.mem_range.mpr (hf ▸ hnext)
    have hle := (List.subperm_of_subset hnd hsub).length_le
    rwa [List.length_append, h.freed_length, List.length_range] at hle
  unfold Registry.dropEntry setByFd
  dsimp only
  rw [if_pos (show e.fd < (r.setBucket _ _).byFd.length from hlt), Option.bind_eq_bind, Option.bind_some]
  have hout : OkBut [e.fd] (setEntry p none { r.setBucket (fdHash e.handle) ((r.buckets (fdHash e.handle)).erase p) with
      byFd := r.byFd.set e.fd none }) := by
    refine ⟨?_, h.free_length, hcnt, h.next_le, h.byFdmax_le, h.freemax_le, fun fd q => ?_, fun b q => ?_, fun b => ?_,
      fun q q' e₁ e₂ h₁ h₂ heq => ?_, hnd, fun fd => ?_, fun fd hfd q e₁ h₁ hq => ?_⟩
    all_goals simp only [setEntry, setBucket] at *
    · rw [List.length_set]
      exact h.byFd_length
    · simp only [hheap]
      by_cases hfd : fd = e.fd
      · subst hfd
        rw [List.getElem?_set_self hlt]
        refine ⟨fun hq => (by cases hq), fun ⟨e', ⟨hne, he'⟩, hfd⟩ => ?_⟩
        exact absurd hfd (hother q e' he' hne)
      · rw [List.getElem?_set_ne (Ne.symm hfd), h.table]
        refine ⟨fun ⟨e', he', hfd'⟩ => ⟨e', ⟨?_, he'⟩, hfd'⟩, fun ⟨e', he', hfd'⟩ => ⟨e', he'.2, hfd'⟩⟩
        rintro rfl
        rw [he] at he'
        cases he'
        exact hfd hfd'.symm
    · simp only [hheap]
      have hc := h.chain b q
      by_cases hb : b = fdHash e.handle
      · subst hb
        rw [Function.update_self, (h.chain_nodup _).mem_erase_iff, hc]
        refine ⟨fun ⟨hne, e', he', hb'⟩ => ⟨e', ⟨hne, he'⟩, hb'⟩, fun ⟨e', he', hb'⟩ => ⟨he'.1, e', he'.2, hb'⟩⟩
      · rw [Function.update_of_ne hb, hc]
        refine ⟨fun ⟨e', he', hb'⟩ => ⟨e', ⟨?_, he'⟩, hb'⟩, fun ⟨e', he', hb'⟩ => ⟨e', he'.2, hb'⟩⟩
        rintro rfl
        rw [he] at he'
        cases he'
        exact hb hb'.symm
    · by_cases hb : b = fdHash e.handle
      · subst hb
        rw [Function.update_self]
        exact (h.chain_nodup _).erase p
      · rw [Function.update_of_ne hb]
        exact h.chain_nodup b
    · exact h.handles q q' e₁ e₂ ((hheap q e₁).mp h₁).2 ((hheap q' e₂).mp h₂).2 heq
    · rw [h.partition fd]
      simp only [List.append_nil, List.mem_append, List.mem_singleton, hheap, freed]
      constructor
      · rintro (hf | ⟨q, e', he', hfd⟩)
        · exact .inl (.inl hf)
        · by_cases hq : q = p
          · subst hq
            rw [he] at he'
            cases he'
            exact .inl (.inr hfd.symm)
          · exact .inr ⟨q, e', ⟨hq, he'⟩, hfd⟩
      · rintro ((hf | rfl) | ⟨q, e', he', hfd⟩)
        · exact .inl hf
        · exact .inr ⟨p, e, he, rfl⟩
        · exact .inr ⟨q, e', he'.2, hfd⟩
    · obtain ⟨hne, h₁'⟩ := (hheap q e₁).mp h₁
      rcases List.mem_append.mp hfd with hf | hf
      · exact h.apart fd (List.mem_append_left _ hf) q e₁ h₁' hq
      · rw [List.mem_singleton] at hf
        exact hother q e₁ h₁' hne (hq.trans hf)
  obtain ⟨r', hr', hok, hheap', -⟩ := hout.pushFree
  exact ⟨r', hr', hok, hheap'⟩

/-! ### Calls -/

theorem OkBut.findHandle (h : OkBut out r) (handle : Handle) :
    ∃ o, r.findHandle handle (r.buckets (fdHash handle)) = some o ∧
      (∀ p, o = some p → ∃ e, r.heap p = some e ∧ e.handle = handle) ∧
      (o = none → ∀ p e, r.heap p = some e → e.handle ≠ handle) := by
  have hwalk : ∀ l : List ℕ, (∀ p ∈ l, ∃ e, r.heap p = some e) →
      ∃ o, r.findHandle handle l = some o ∧ (∀ p, o = some p → ∃ e, r.heap p = some e ∧ e.handle = handle) ∧
        (o = none → ∀ p ∈ l, ∀ e, r.heap p = some e → e.handle ≠ handle) := by
    intro l hl
    induction l with
    | nil => exact ⟨none, rfl, fun _ hp => (by cases hp), fun _ _ hp => (by cases hp)⟩
    | cons q l ih =>
      obtain ⟨e, he⟩ := hl q List.mem_cons_self
      by_cases hq : e.handle = handle
      · refine ⟨some q, by simp [Registry.findHandle, he, hq], fun p hp => ?_, fun ho => by cases ho⟩
        cases hp
        exact ⟨e, he, hq⟩
      · obtain ⟨o, ho, h₁, h₂⟩ := ih fun p hp => hl p (List.mem_cons_of_mem _ hp)
        refine ⟨o, by simp [Registry.findHandle, he, hq, ho], h₁, fun hn p hp e' he' => ?_⟩
        rcases List.mem_cons.mp hp with rfl | hp
        · rw [he] at he'
          cases he'
          exact hq
        · exact h₂ hn p hp e' he'
  obtain ⟨o, ho, h₁, h₂⟩ := hwalk (r.buckets (fdHash handle)) fun p hp => by
    obtain ⟨e, he, -⟩ := (h.chain _ p).mp hp
    exact ⟨e, he⟩
  refine ⟨o, ho, h₁, fun hn p e he heq => ?_⟩
  exact h₂ hn p ((h.chain _ p).mpr ⟨e, he, by rw [heq]⟩) e he heq

theorem OkBut.findFd (h : OkBut out r) (fd : ℤ) :
    (r.findFd fd = some none ∧ ∀ p e, r.heap p = some e → (e.fd : ℤ) ≠ fd) ∨
      ∃ p e, r.findFd fd = some (some p) ∧ r.heap p = some e ∧ (e.fd : ℤ) = fd := by
  unfold Registry.findFd
  split
  · rename_i hfd
    have hlt : fd.toNat < r.byFd.length := by
      rw [h.byFd_length]
      omega
    rw [List.getElem?_eq_getElem hlt]
    cases ho : r.byFd[fd.toNat] with
    | none =>
      refine .inl ⟨rfl, fun p e he heq => ?_⟩
      have := (h.table e.fd p).mpr ⟨e, he, rfl⟩
      rw [show e.fd = fd.toNat by omega, List.getElem?_eq_getElem hlt, ho] at this
      cases this
    | some p =>
      obtain ⟨e, he, hf⟩ := (h.table fd.toNat p).mp (by rw [List.getElem?_eq_getElem hlt, ho])
      exact .inr ⟨p, e, rfl, he, by omega⟩
  · rename_i hfd
    refine .inl ⟨rfl, fun p e he heq => hfd ?_⟩
    have h1 := h.lt_next he
    have h2 := h.next_le
    omega

/-- What an acquire does: it counts a known handle once more, enters a new one with count 1,
or fails and leaves the entries as they are. -/
theorem OkBut.fdAcquire (h : r.Ok) (handle : Handle) (owned : Bool) (a : Alloc) (hfresh : ∀ p ∈ a.entry, r.heap p = none) :
    ∃ r' res, r.fdAcquire handle owned a = some (r', res) ∧ r'.Ok ∧
      ((∃ p e, r.heap p = some e ∧ e.handle = handle ∧ res = .ok e.fd ∧
          r'.heap = Function.update r.heap p (some { e with refcount := e.refcount + 1 })) ∨
        (∃ p e, r.heap p = none ∧ (∀ p' e', r.heap p' = some e' → e'.handle ≠ handle) ∧ e.handle = handle ∧
          e.refcount = 1 ∧ res = .ok e.fd ∧ r'.heap = Function.update r.heap p (some e)) ∨
        ((∃ errno, res = .error errno) ∧ r'.heap = r.heap ∧ r.next ≤ r'.next)) := by
  unfold Registry.fdAcquire
  split
  · exact ⟨r, _, rfl, h, .inr (.inr ⟨⟨_, rfl⟩, rfl, le_rfl⟩)⟩
  · split
    · exact ⟨r, _, rfl, h, .inr (.inr ⟨⟨_, rfl⟩, rfl, le_rfl⟩)⟩
    · rename_i r₁ hinit
      obtain ⟨h₁, hheap₁⟩ := h.fdInit hinit
      have hnext₁ : r₁.next = r.next := by rw [fdInit_eq hinit]
      obtain ⟨o, ho, hsome, hnone⟩ := h₁.findHandle handle
      rw [ho, Option.bind_eq_bind, Option.bind_some]
      rw [← hheap₁] at hfresh ⊢
      rw [← hnext₁]
      cases o with
      | some p =>
        obtain ⟨e, he, hhandle⟩ := hsome p rfl
        refine ⟨_, _, by dsimp only; rw [he]; rfl, h₁.recount he _, .inl ⟨p, e, he, hhandle, rfl, rfl⟩⟩
      | none =>
        have hnew := hnone rfl
        dsimp only
        unfold acquireNew
        obtain ⟨⟨r₂, res₂⟩, hr₂, h₂, ⟨hheap₂, hnext₂⟩, hroom⟩ : ∃ q,
            (if r₁.freecnt = 0 then r₁.fdReserve r₁.next a else (r₁, .ok ())) = q ∧ q.1.Ok ∧
              (q.1.heap = r₁.heap ∧ q.1.next = r₁.next) ∧
              (q.2 = .ok () → q.1.freecnt = 0 → q.1.next < q.1.byFdmax) := by
          refine ⟨_, rfl, ?_⟩
          split
          · obtain ⟨k1, k2, -, k3, -, k4⟩ := h₁.fdReserve r₁.next a le_rfl
            exact ⟨k1, ⟨k2, k3⟩, fun hk _ => by rw [k3]; exact k4 hk⟩
          · rename_i hne
            exact ⟨h₁, ⟨rfl, rfl⟩, fun _ h0 => absurd h0 hne⟩
        rw [hr₂]
        cases res₂ with
        | error errno => exact ⟨r₂, _, rfl, h₂, .inr (.inr ⟨⟨_, rfl⟩, hheap₂, hnext₂.ge⟩)⟩
        | ok _ =>
          obtain ⟨fd, r₃, hr₃, h₃, hheap₃, hnext₃⟩ := h₂.fdAlloc (hroom rfl)
          dsimp only
          rw [hr₃, Option.bind_eq_bind, Option.bind_some]
          dsimp only
          cases hent : a.entry with
          | none =>
            obtain ⟨r₄, hr₄, h₄, hheap₄, hnext₄⟩ := h₃.pushFree
            dsimp only
            rw [hr₄]
            exact ⟨r₄, _, rfl, h₄, .inr (.inr ⟨⟨_, rfl⟩, by rw [hheap₄, hheap₃, hheap₂], by rw [hnext₄, ← hnext₂]; exact hnext₃⟩)⟩
          | some p =>
            have hheap : r₃.heap = r₁.heap := hheap₃.trans hheap₂
            have hp : r₃.heap p = none := by
              rw [hheap]
              exact hfresh p hent
            obtain ⟨r₄, hr₄, h₄, hheap₄⟩ := OkBut.insert (e := ⟨fd, handle, 1, owned⟩) h₃ hp (by rw [hheap]; exact hnew)
            dsimp only at hr₄ ⊢
            rw [hr₄]
            refine ⟨r₄, _, rfl, h₄, .inr (.inl ⟨p, ⟨fd, handle, 1, owned⟩, ?_, hnew, rfl, rfl, rfl, ?_⟩)⟩
            · rw [← hheap]
              exact hp
            · rw [hheap₄, hheap]

/-- What a release does: it counts the entry of the index down, takes it away when that makes
0, or fails and leaves the entries as they are. -/
theorem OkBut.fdRelease (h : r.Ok) (fd : ℤ) (closeHandle : Bool) (a : Alloc) :
    ∃ r' res, r.fdRelease fd closeHandle a = some (r', res) ∧ r'.Ok ∧
      ((∃ p e, r.heap p = some e ∧ (e.fd : ℤ) = fd ∧ e.refcount ≠ 1 ∧ res = .ok none ∧
          r'.heap = Function.update r.heap p (some { e with refcount := e.refcount - 1 })) ∨
        (∃ p e, r.heap p = some e ∧ (e.fd : ℤ) = fd ∧ e.refcount = 1 ∧
          res = .ok (if closeHandle && e.owned then some e.handle else none) ∧ r'.heap = Function.update r.heap p none) ∨
        ((∃ errno, res = .error errno) ∧ r'.heap = r.heap)) := by
  unfold Registry.fdRelease
  split
  · exact ⟨r, _, rfl, h, .inr (.inr ⟨⟨_, rfl⟩, rfl⟩)⟩
  · rename_i r₁ hinit
    obtain ⟨h₁, hheap₁⟩ := h.fdInit hinit
    rw [← hheap₁]
    rcases h₁.findFd fd with ⟨hf, -⟩ | ⟨p, e, hf, he, hfd⟩
    · rw [hf]
      exact ⟨r₁, _, rfl, h₁, .inr (.inr ⟨⟨_, rfl⟩, rfl⟩)⟩
    · rw [hf, Option.bind_eq_bind, Option.bind_some]
      dsimp only
      rw [he, Option.bind_eq_bind, Option.bind_some]
      split
      · rename_i hne
        refine ⟨_, _, rfl, h₁.recount he _, .inl ⟨p, e, he, hfd, ?_, rfl, rfl⟩⟩
        rintro h1
        rw [h1] at hne
        exact hne (by decide)
      · rename_i heq
        rw [not_not, sub_eq_zero] at heq
        obtain ⟨r₂, hr₂, h₂, hheap₂⟩ := h₁.dropEntry he
        rw [show fd.toNat = e.fd by omega, hr₂]
        exact ⟨r₂, _, rfl, h₂, .inr (.inl ⟨p, e, he, hfd, heq, rfl, hheap₂⟩)⟩

theorem OkBut.handleOf_eq_some (h : OkBut out r) (fd : ℕ) (handle : Handle) :
    State.handleOf r fd = some handle ↔ ∃ p e, r.heap p = some e ∧ e.fd = fd ∧ e.handle = handle := by
  unfold State.handleOf
  simp only [Option.bind_eq_some_iff, Option.map_eq_some_iff, Option.join_eq_some_iff]
  constructor
  · rintro ⟨p, ho, e, he, rfl⟩
    obtain ⟨e', he', hfd⟩ := (h.table fd p).mp ho
    rw [he] at he'
    cases he'
    exact ⟨p, e, he, hfd, rfl⟩
  · rintro ⟨p, e, he, hfd, rfl⟩
    exact ⟨p, (h.table fd p).mpr ⟨e, he, hfd⟩, e, he, rfl⟩

theorem OkBut.handleOf_congr (h : OkBut out r) (h' : OkBut out r') (hheap : r'.heap = r.heap) (fd : ℕ) :
    State.handleOf r' fd = State.handleOf r fd := by
  refine Option.ext fun handle => ?_
  rw [h'.handleOf_eq_some, h.handleOf_eq_some, hheap]

end Registry

/-! ### Runs -/

namespace State

variable {s t : State}

/-- The count of an entry is what was acquired of its handle and not released; a handle
without an entry has been released as often as acquired. -/
structure Balanced (s : State) : Prop where
  live : ∀ p e, s.reg.heap p = some e →
    s.acquired e.handle = s.released e.handle + e.refcount.toNat ∧ 0 < e.refcount.toNat
  dead : ∀ h, (∀ p e, s.reg.heap p = some e → e.handle ≠ h) → s.acquired h = s.released h

theorem balanced_init : init.Balanced :=
  ⟨fun _ _ he => (by cases he), fun _ _ => rfl⟩

theorem Balanced.congr (h : s.Balanced) (hreg : t.reg.heap = s.reg.heap) (ha : t.acquired = s.acquired)
    (hr : t.released = s.released) : t.Balanced := by
  obtain ⟨live, dead⟩ := h
  refine ⟨?_, ?_⟩
  · rw [hreg, ha, hr]
    exact live
  · rw [hreg, ha, hr]
    exact dead

/-- A step: the allocator hands out unused blocks, and no handle is acquired more than
2 ^ 32 - 1 times without a release. -/
def Step (s : State) (c : Call) (t : State) : Prop :=
  s.Fresh c ∧ s.call c = some t ∧ ∀ h, t.outstanding h < 2 ^ 32

theorem call_acquire (hok : s.reg.Ok) (hb : s.Balanced) (h : Handle) (owned : Bool) (a : Alloc)
    (hf : s.Fresh (.acquire h owned a)) :
    ∃ t, s.call (.acquire h owned a) = some t ∧ t.reg.Ok ∧
      ((∀ h, t.outstanding h < 2 ^ 32) → t.Balanced) := by
  obtain ⟨r, res, hr, hok', hcase⟩ := hok.fdAcquire h owned a hf
  simp only [call]
  rw [hr]
  rcases hcase with ⟨p, e, he, rfl, rfl, hheap⟩ | ⟨p, e, hp, hnew, rfl, h1, rfl, hheap⟩ | ⟨⟨errno, rfl⟩, hheap, -⟩
  · refine ⟨_, rfl, hok', fun hout => ⟨fun p' e' he' => ?_, fun h' hno => ?_⟩⟩
    all_goals simp only [hheap] at *
    · obtain ⟨h1, h2⟩ := hb.live p e he
      by_cases hp : p' = p
      · subst hp
        rw [Function.update_self] at he'
        cases he'
        have hlt := hout e.handle
        simp only [outstanding, Function.update_self] at hlt ⊢
        have hinc : (e.refcount + 1).toNat = e.refcount.toNat + 1 := by
          rw [BitVec.toNat_add]
          exact Nat.mod_eq_of_lt (by simp; omega)
        rw [hinc]
        omega
      · rw [Function.update_of_ne hp] at he'
        have hne : e'.handle ≠ e.handle := fun heq => hp (hok.handles p' p e' e he' he heq)
        rw [Function.update_of_ne hne]
        exact hb.live p' e' he'
    · have hne : h' ≠ e.handle := by
        rintro rfl
        exact hno p _ (Function.update_self ..) rfl
      rw [Function.update_of_ne hne]
      refine hb.dead h' fun p' e' he' => ?_
      by_cases hp : p' = p
      · subst hp
        rw [he] at he'
        cases he'
        exact hne.symm
      · exact hno p' e' (by rw [Function.update_of_ne hp]; exact he')
  · refine ⟨_, rfl, hok', fun _ => ⟨fun p' e' he' => ?_, fun h' hno => ?_⟩⟩
    all_goals simp only [hheap] at *
    · by_cases hpp : p' = p
      · subst hpp
        rw [Function.update_self] at he'
        cases he'
        have hd := hb.dead e.handle hnew
        rw [Function.update_self, hd, h1]
        exact ⟨rfl, by decide⟩
      · rw [Function.update_of_ne hpp] at he'
        rw [Function.update_of_ne (hnew p' e' he')]
        exact hb.live p' e' he'
    · have hne : h' ≠ e.handle := by
        rintro rfl
        exact hno p _ (Function.update_self ..) rfl
      rw [Function.update_of_ne hne]
      refine hb.dead h' fun p' e' he' => hno p' e' ?_
      rw [Function.update_of_ne]
      · exact he'
      · rintro rfl
        rw [hp] at he'
        cases he'
  · exact ⟨_, rfl, hok', fun _ => hb.congr hheap rfl rfl⟩

theorem call_release (hok : s.reg.Ok) (hb : s.Balanced) (fd : ℤ) (closeHandle : Bool) (a : Alloc) :
    ∃ t, s.call (.release fd closeHandle a) = some t ∧ t.reg.Ok ∧ t.Balanced := by
  obtain ⟨r, res, hr, hok', hcase⟩ := hok.fdRelease fd closeHandle a
  have hhandle : ∀ p e, s.reg.heap p = some e → (e.fd : ℤ) = fd → handleOf s.reg fd.toNat = some e.handle :=
    fun p e he hfd => (hok.handleOf_eq_some _ _).mpr ⟨p, e, he, by omega, rfl⟩
  simp only [call]
  rw [hr]
  rcases hcase with ⟨p, e, he, hfd, hne1, rfl, hheap⟩ | ⟨p, e, he, hfd, h1, rfl, hheap⟩ | ⟨⟨errno, rfl⟩, hheap⟩
  · obtain ⟨hl1, hl2⟩ := hb.live p e he
    rw [hhandle p e he hfd]
    refine ⟨_, rfl, hok', ⟨fun p' e' he' => ?_, fun h' hno => ?_⟩⟩
    all_goals simp only [hheap] at *
    · by_cases hp : p' = p
      · subst hp
        rw [Function.update_self] at he'
        cases he'
        have hne : e.refcount.toNat ≠ 1 := fun h1 => hne1 (BitVec.eq_of_toNat_eq h1)
        have hdec : (e.refcount - 1).toNat = e.refcount.toNat - 1 :=
          BitVec.toNat_sub_of_le (by simpa [BitVec.le_def] using Nat.succ_le_of_lt hl2)
        simp only [Function.update_self]
        rw [hdec]
        omega
      · rw [Function.update_of_ne hp] at he'
        have hne : e'.handle ≠ e.handle := fun heq => hp (hok.handles p' p e' e he' he heq)
        rw [Function.update_of_ne hne]
        exact hb.live p' e' he'
    · have hne : h' ≠ e.handle := by
        rintro rfl
        exact hno p _ (Function.update_self ..) rfl
      rw [Function.update_of_ne hne]
      refine hb.dead h' fun p' e' he' => ?_
      by_cases hp : p' = p
      · subst hp
        rw [he] at he'
        cases he'
        exact hne.symm
      · exact hno p' e' (by rw [Function.update_of_ne hp]; exact he')
  · obtain ⟨hl1, hl2⟩ := hb.live p e he
    rw [hhandle p e he hfd]
    refine ⟨_, rfl, hok', ⟨fun p' e' he' => ?_, fun h' hno => ?_⟩⟩
    all_goals simp only [hheap] at *
    · have hp : p' ≠ p := by
        rintro rfl
        rw [Function.update_self] at he'
        cases he'
      rw [Function.update_of_ne hp] at he'
      have hne : e'.handle ≠ e.handle := fun heq => hp (hok.handles p' p e' e he' he heq)
      rw [Function.update_of_ne hne]
      exact hb.live p' e' he'
    · by_cases hne : h' = e.handle
      · subst hne
        rw [Function.update_self, hl1, h1]
        rfl
      · rw [Function.update_of_ne hne]
        refine hb.dead h' fun p' e' he' => ?_
        by_cases hp : p' = p
        · subst hp
          rw [he] at he'
          cases he'
          exact Ne.symm hne
        · exact hno p' e' (by rw [Function.update_of_ne hp]; exact he')
  · exact ⟨_, rfl, hok', hb.congr hheap rfl rfl⟩

/-- Every call has a result that is consistent again. -/
theorem call_ok (hok : s.reg.Ok) (hb : s.Balanced) {c : Call} (hf : s.Fresh c) :
    ∃ t, s.call c = some t ∧ t.reg.Ok ∧ ((∀ h, t.outstanding h < 2 ^ 32) → t.Balanced) := by
  cases c with
  | acquire h owned a => exact call_acquire hok hb h owned a hf
  | release fd closeHandle a =>
    obtain ⟨t, ht, hok', hb'⟩ := call_release hok hb fd closeHandle a
    exact ⟨t, ht, hok', fun _ => hb'⟩

theorem run_ok {calls : List Call} (hrun : Run Step init calls s) : s.reg.Ok ∧ s.Balanced := by
  refine hrun.invariant (I := fun s => s.reg.Ok ∧ s.Balanced) ?_ ⟨Registry.ok_init, balanced_init⟩
  rintro s c t ⟨hok, hb⟩ ⟨hf, hc, hout⟩
  obtain ⟨t', ht', hok', hb'⟩ := call_ok hok hb hf
  rw [hc] at ht'
  cases ht'
  exact ⟨hok', hb' hout⟩

/-- In every run the registry is consistent: handles and indices of its entries are distinct,
chains and table lead to the same entries, every index ever given out is in use or free, the
capacities are in order and backed by storage, and an entry is there as long as its handle is
acquired more often than released, which is its count. Every further call has a result, so
none writes past a table, and an acquire that fails changes no handle and loses no index. -/
theorem registry_consistent {calls : List Call} (hrun : Run Step init calls s) :
    s.reg.Ok ∧ s.Balanced ∧
      (∀ p p' e e', s.reg.heap p = some e → s.reg.heap p' = some e' → e.fd = e'.fd → p = p') ∧
      (∀ c, s.Fresh c → ∃ t, s.call c = some t) ∧
      ∀ h owned a r errno, s.Fresh (.acquire h owned a) → s.reg.fdAcquire h owned a = some (r, .error errno) →
        (∀ fd, handleOf r fd = handleOf s.reg fd) ∧ r.Ok ∧ s.reg.next ≤ r.next := by
  obtain ⟨hok, hb⟩ := run_ok hrun
  refine ⟨hok, hb, fun p p' e e' he he' => hok.fds he he', fun c hf => ?_, fun h owned a r errno hf ha => ?_⟩
  · obtain ⟨t, ht, -, -⟩ := call_ok hok hb hf
    exact ⟨t, ht⟩
  · obtain ⟨r', res, hr, hok', hcase⟩ := hok.fdAcquire h owned a hf
    rw [ha] at hr
    cases hr
    rcases hcase with ⟨_, _, _, _, hres, _⟩ | ⟨_, _, _, _, _, _, hres, _⟩ | ⟨_, hheap, hnext⟩
    · cases hres
    · cases hres
    · exact ⟨fun fd => hok.handleOf_congr hok' hheap fd, hok', hnext⟩

/-! ### The width of the count -/

/-- Memory for everything, the entry at block 0. -/
def roomy : Alloc := ⟨true, some fun _ => 0, true, some 0⟩

/-- Memory for nothing. -/
def exhausted : Alloc := ⟨false, none, false, none⟩

theorem fresh_exhausted (h : Handle) (owned : Bool) : s.Fresh (.acquire h owned exhausted) :=
  fun _ hp => by cases hp

theorem acquire_first : ∃ t, init.call (.acquire 1 false roomy) = some t ∧ t.reg.Ok ∧
    (∃ p e, t.reg.heap p = some e ∧ e.handle = 1 ∧ e.refcount = 1) ∧ t.acquired 1 = 1 ∧ t.released 1 = 0 := by
  obtain ⟨r, res, hr, hok, hcase⟩ := Registry.ok_init.fdAcquire 1 false roomy fun _ _ => rfl
  have hsome : (Registry.init.fdAcquire 1 false roomy).map (fun r => r.2.toOption) = some (some 0) := by
    decide +kernel
  simp only [call]
  rw [show init.reg = Registry.init from rfl, hr]
  rcases hcase with ⟨p, e, he, -⟩ | ⟨p, e, -, -, he, h1, rfl, hheap⟩ | ⟨⟨errno, rfl⟩, -⟩
  · cases he
  · refine ⟨_, rfl, hok, ⟨p, e, ?_, he, h1⟩, rfl, rfl⟩
    rw [show r.heap = Function.update Registry.init.heap p (some e) from hheap, Function.update_self]
  · rw [hr] at hsome
    cases hsome

theorem acquire_again {p : ℕ} {e : Entry} (hok : s.reg.Ok) (he : s.reg.heap p = some e)
    (hinit : s.reg.ready = true) (hnull : ¬ (e.handle = 0 ∨ e.handle = invalidSocket)) :
    ∃ t, s.call (.acquire e.handle false exhausted) = some t ∧ t.reg.Ok ∧ t.reg.ready = true ∧
      t.reg.heap p = some { e with refcount := e.refcount + 1 } ∧
      t.acquired e.handle = s.acquired e.handle + 1 ∧ t.released = s.released := by
  obtain ⟨o, ho, hsome, hnone⟩ := hok.findHandle e.handle
  cases o with
  | none => exact absurd rfl (hnone rfl p e he)
  | some q =>
    obtain ⟨e', he', hh⟩ := hsome q rfl
    obtain rfl := hok.handles q p e' e he' he hh
    rw [he] at he'
    cases he'
    have hacq : s.reg.fdAcquire e.handle false exhausted =
        some (s.reg.setEntry q (some { e with refcount := e.refcount + 1 }), .ok e.fd) := by
      unfold Registry.fdAcquire Registry.fdInit
      rw [if_neg hnull, if_pos hinit]
      dsimp only
      rw [ho, Option.bind_eq_bind, Option.bind_some]
      dsimp only
      rw [he]
      rfl
    simp only [call]
    rw [hacq]
    exact ⟨_, rfl, hok.recount he _, hinit, Function.update_self .., Function.update_self .., rfl⟩

/-- 2 ^ 32 acquires of one handle count 0. -/
theorem registry_consistent_wrap :
    ∃ s, Run (fun s c t => s.Fresh c ∧ s.call c = some t) init
        (.acquire 1 false roomy :: List.replicate (2 ^ 32 - 1) (.acquire 1 false exhausted)) s ∧ ¬ s.Balanced := by
  have hruns : ∀ n, ∃ s, Run (fun s c t => s.Fresh c ∧ s.call c = some t) init
      (.acquire 1 false roomy :: List.replicate n (.acquire 1 false exhausted)) s ∧ s.reg.Ok ∧ s.reg.ready = true ∧
        (∃ p e, s.reg.heap p = some e ∧ e.handle = 1 ∧ e.refcount = BitVec.ofNat 32 (n + 1)) ∧
        s.acquired 1 = n + 1 ∧ s.released 1 = 0 := by
    intro n
    induction n with
    | zero =>
      obtain ⟨t, ht, hok, hent, ha, hr⟩ := acquire_first
      have hready : t.reg.ready = true := by
        have hsome : (init.call (.acquire 1 false roomy)).map (fun t => t.reg.ready) = some true := by decide +kernel
        rw [ht] at hsome
        simpa using hsome
      exact ⟨t, .single ⟨fun _ _ => rfl, ht⟩, hok, hready, hent, ha, hr⟩
    | succ n ih =>
      obtain ⟨s, hrun, hok, hready, ⟨p, e, he, hh, hc⟩, ha, hr⟩ := ih
      obtain ⟨t, ht, hok', hready', hheap, ha', hr'⟩ := acquire_again hok he hready (by rw [hh]; decide)
      rw [hh] at ht ha'
      refine ⟨t, ?_, hok', hready', ⟨p, _, hheap, hh, ?_⟩, by rw [ha', ha], by rw [hr', hr]⟩
      · rw [List.replicate_succ', ← List.cons_append]
        exact hrun.snoc ⟨fresh_exhausted _ _, ht⟩
      · rw [BitVec.ofNat_add (n + 1) 1, ← hc]
        rfl
  obtain ⟨s, hrun, -, -, ⟨p, e, he, hh, hc⟩, ha, hr⟩ := hruns (2 ^ 32 - 1)
  refine ⟨s, hrun, fun hb => ?_⟩
  obtain ⟨-, hpos⟩ := hb.live p e he
  rw [hc] at hpos
  exact absurd hpos (by decide)

theorem outstanding_call_le {c : Call} (h : s.call c = some t) (handle : Handle) :
    t.outstanding handle ≤ s.outstanding handle + 1 := by
  cases c with
  | acquire h' owned a =>
    obtain ⟨⟨r, res⟩, -, rfl⟩ := Option.map_eq_some_iff.mp h
    cases res with
    | error errno => exact Nat.le_succ _
    | ok fd =>
      simp only [outstanding]
      by_cases hh : handle = h'
      · subst hh
        rw [Function.update_self]
        omega
      · rw [Function.update_of_ne hh]
        omega
  | release fd closeHandle a =>
    obtain ⟨⟨r, res⟩, -, rfl⟩ := Option.map_eq_some_iff.mp h
    dsimp only
    split
    · rename_i h' _
      simp only [outstanding]
      by_cases hh : handle = h'
      · subst hh
        rw [Function.update_self]
        omega
      · rw [Function.update_of_ne hh]
        omega
    · exact Nat.le_succ _

/-- An entry is made, an acquire fails for want of memory, the entry goes. -/
theorem registry_consistent_three :
    ∃ s, Run Step init [.acquire 1 true roomy, .acquire 2 true exhausted, .release 0 true exhausted] s ∧ s.reg.Ok := by
  have h0 : ∀ h, init.outstanding h = 0 := fun _ => rfl
  obtain ⟨s₁, hs₁, hok₁, hb₁⟩ := call_ok Registry.ok_init balanced_init
    (c := .acquire 1 true roomy) fun _ _ => rfl
  have h1 : ∀ h, s₁.outstanding h ≤ 1 := fun h => by simpa [h0] using outstanding_call_le hs₁ h
  have hb₁ := hb₁ fun h => (h1 h).trans_lt (by norm_num)
  obtain ⟨s₂, hs₂, hok₂, hb₂⟩ := call_ok hok₁ hb₁ (c := .acquire 2 true exhausted) (fresh_exhausted _ _)
  have h2 : ∀ h, s₂.outstanding h ≤ 2 := fun h => (outstanding_call_le hs₂ h).trans (by have := h1 h; omega)
  have hb₂ := hb₂ fun h => (h2 h).trans_lt (by norm_num)
  obtain ⟨s₃, hs₃, hok₃, hb₃⟩ := call_ok hok₂ hb₂ (c := .release 0 true exhausted) fun _ hp => by cases hp
  have h3 : ∀ h, s₃.outstanding h ≤ 3 := fun h => (outstanding_call_le hs₃ h).trans (by have := h2 h; omega)
  have hrun : Run Step init [.acquire 1 true roomy, .acquire 2 true exhausted, .release 0 true exhausted] s₃ :=
    .cons ⟨fun _ _ => rfl, hs₁, fun h => (h1 h).trans_lt (by norm_num)⟩
      (.cons ⟨fresh_exhausted _ _, hs₂, fun h => (h2 h).trans_lt (by norm_num)⟩
        (.single ⟨fun _ hp => (by cases hp), hs₃, fun h => (h3 h).trans_lt (by norm_num)⟩))
  exact ⟨s₃, hrun, (registry_consistent hrun).1⟩

end State
end Win32
end Qev
