import ElasticStream.Collections.Partition
import ElasticStream.Trace.Reachable

/-! # The etcd ID allocator

`EtcdAllocator` (pd/pkg/server/id/etcd.go) hands out IDs from a cached block
`[base, end)`. When the block runs short, `AllocN` takes what is left of it and
`growLocked` reads the end stored under the allocator's key, then writes a
larger end with a transaction that compares the key with what it read. Every
leader of the placement driver builds its own allocator on the key, so the
calls of several allocators interleave between the read and the commit of a
grow. IDs are natural numbers: a `uint64` end would wrap only after `2^64` IDs
were handed out. -/

namespace ElasticStream.Placement.Id
open ElasticStream.Collections ElasticStream.Trace

def defaultStep : Nat := 1000

def defaultStart : Nat := 0

structure EtcdAllocator where
  base : Nat
  «end» : Nat
  start : Nat
  step : Nat
  deriving DecidableEq, Repr

/-- `NewEtcdAllocator`: an empty block at `start`. -/
def newEtcdAllocator (start step : Nat) : EtcdAllocator :=
  let step := if step = 0 then defaultStep else step
  let start := if start = 0 then defaultStart else start
  ⟨start, start, start, step⟩

section New
variable (start step : Nat)

/-- `_defaultStart` is `0`, so the start is kept. -/
@[simp] theorem base_newEtcdAllocator : (newEtcdAllocator start step).base = start := by
  unfold newEtcdAllocator defaultStart
  split_ifs <;> simp only <;> omega

@[simp] theorem end_newEtcdAllocator : (newEtcdAllocator start step).«end» = start := by
  unfold newEtcdAllocator defaultStart
  split_ifs <;> simp only <;> omega

theorem step_newEtcdAllocator_pos : 0 < (newEtcdAllocator start step).step := by
  unfold newEtcdAllocator defaultStep
  split_ifs with h <;> simp only <;> omega

end New

/-- An `AllocN(n)` waiting in `growLocked`: the IDs taken from the tail of the
block, the count `rest` still to take, the growth, and the key as `GetOne`
read it (`none` before the read, `some none` for a missing key). -/
structure Grow where
  n : Nat
  ids : List Nat
  rest : Nat
  growth : Nat
  read : Option (Option Nat)
  deriving DecidableEq, Repr

inductive AllocResult where
  | done (ids : List Nat)
  | grow (g : Grow)
  deriving DecidableEq, Repr

namespace EtcdAllocator

/-- `AllocN(n)` up to the call of `growLocked`. The count is an `int` in the
source, and one `≤ 0` returns no IDs; here it is a natural number. -/
def allocN (e : EtcdAllocator) (n : Nat) : AllocResult × EtcdAllocator :=
  if n = 0 then (.done [], e)
  else if e.«end» - e.base ≥ n then (.done (List.range' e.base n), { e with base := e.base + n })
  else
    -- the tail of the block is taken one ID at a time, and `n` counts down
    let rest := n - (e.«end» - e.base)
    (.grow ⟨n, List.range' e.base (e.«end» - e.base), rest, e.step * (rest / e.step + 1), none⟩,
      { e with base := e.«end» })

/-- The end the grow builds on: the stored one, or the local base for a missing key. -/
def prevEnd (e : EtcdAllocator) : Option Nat → Nat
  | none => e.base
  | some v => v

/-- `AllocN` after a grow that committed: the block `[prevEnd, prevEnd + growth)`,
and the IDs taken from its start. -/
def finish (e : EtcdAllocator) (g : Grow) (prevEnd : Nat) : List Nat × EtcdAllocator :=
  (g.ids ++ List.range' prevEnd g.rest, { e with base := prevEnd + g.rest, «end» := prevEnd + g.growth })

theorem allocN_eq_done {e e' : EtcdAllocator} {n : Nat} {ids : List Nat} (h : e.allocN n = (.done ids, e')) :
    ids = List.range' e.base n ∧ e' = { e with base := e.base + n } ∧ n ≤ e.«end» - e.base := by
  unfold allocN at h
  split_ifs at h with h0 hle
  · cases h; subst h0; exact ⟨rfl, rfl, Nat.zero_le _⟩
  · cases h; exact ⟨rfl, rfl, hle⟩
  · simp at h

theorem allocN_eq_grow {e e' : EtcdAllocator} {n : Nat} {g : Grow} (h : e.allocN n = (.grow g, e')) :
    e.«end» - e.base < n ∧
      g = ⟨n, List.range' e.base (e.«end» - e.base), n - (e.«end» - e.base),
        e.step * ((n - (e.«end» - e.base)) / e.step + 1), none⟩ ∧
      e' = { e with base := e.«end» } := by
  unfold allocN at h
  split_ifs at h with h0 hle
  · simp at h
  · simp at h
  · cases h
    exact ⟨by omega, rfl, rfl⟩

end EtcdAllocator

/-- The compare of the grow's transaction: `CreateRevision == 0` for a key read
as missing, `Value ==` the value read otherwise. -/
def cmp (store : Option Nat) : Option Nat → Bool
  | none => store.isNone
  | some v => store == some v

/-- One allocator and the `AllocN` it is running, if any (its mutex is held
for the whole call). -/
structure Slot where
  alloc : EtcdAllocator
  call : Option Grow

/-- The key in etcd, every allocator that serves it, and the result of each
`AllocN` that returned IDs: its count and the IDs. -/
structure System where
  store : Option Nat
  slots : Nat → Slot
  returned : List (Nat × List Nat)

inductive Event where
  /-- allocator `i` starts `AllocN(n)` -/
  | allocN (i n : Nat)
  /-- the grow of allocator `i` reads the key -/
  | getOne (i : Nat)
  /-- the grow's transaction; with `acked = false` its reply is lost -/
  | commit (i : Nat) (acked : Bool)
  /-- the read or the transaction fails, or `cmpFunc` is false -/
  | fail (i : Nat)

namespace System

/-- Allocator `i` in state `sl`, the others unchanged. -/
def set (s : System) (i : Nat) (sl : Slot) : System := { s with slots := Function.update s.slots i sl }

def handle (s : System) : Event → Option System
  | .allocN i n =>
    match (s.slots i).call with
    | some _ => none
    | none =>
      match (s.slots i).alloc.allocN n with
      | (.done ids, e) => some { s.set i ⟨e, none⟩ with returned := s.returned ++ [(n, ids)] }
      | (.grow g, e) => some (s.set i ⟨e, some g⟩)
  | .getOne i =>
    match (s.slots i).call with
    | some g => if g.read = none then some (s.set i ⟨(s.slots i).alloc, some { g with read := some s.store }⟩)
      else none
    | none => none
  | .commit i acked =>
    match (s.slots i).call with
    | some g =>
      match g.read with
      | some kv =>
        if cmp s.store kv then
          let prevEnd := (s.slots i).alloc.prevEnd kv
          let store := some (prevEnd + g.growth)
          if acked then
            let (ids, e) := (s.slots i).alloc.finish g prevEnd
            some { s.set i ⟨e, none⟩ with store, returned := s.returned ++ [(g.n, ids)] }
          else some { s.set i ⟨(s.slots i).alloc, none⟩ with store }
        -- `ErrKVTxnFailed`
        else some (s.set i ⟨(s.slots i).alloc, none⟩)
      | none => none
    | none => none
  | .fail i =>
    match (s.slots i).call with
    | some _ => some (s.set i ⟨(s.slots i).alloc, none⟩)
    | none => none

def Step (s s' : System) : Prop := ∃ ev, s.handle ev = some s'

/-- No grow has committed, and each allocator is new, with any step. -/
def Initial (start : Nat) (s : System) : Prop :=
  s.store = none ∧ s.returned = [] ∧ ∀ i, ∃ step, s.slots i = ⟨newEtcdAllocator start step, none⟩

def Reachable (start : Nat) : System → Prop := Trace.Reachable Step (Initial start)

/-- The allocators built with `start` and the steps `steps`, before any call. -/
def new (start : Nat) (steps : Nat → Nat) : System :=
  ⟨none, fun i => ⟨newEtcdAllocator start (steps i), none⟩, []⟩

/-- The events one after another; `none` if one is not enabled. -/
def run (s : System) : List Event → Option System
  | [] => some s
  | ev :: evs => (s.handle ev).bind fun s' => s'.run evs

/-- The IDs of all successful calls. -/
def returnedIds (s : System) : List Nat := s.returned.flatMap Prod.snd

end System

namespace Slot

/-- The IDs a slot holds: those its call has taken, and its cached block. -/
def held (sl : Slot) : List Nat :=
  (sl.call.map Grow.ids).getD [] ++ List.range' sl.alloc.base (sl.alloc.«end» - sl.alloc.base)

@[simp] theorem held_idle (a : EtcdAllocator) :
    (⟨a, none⟩ : Slot).held = List.range' a.base (a.«end» - a.base) := by
  simp [held]

@[simp] theorem held_busy (a : EtcdAllocator) (g : Grow) :
    (⟨a, some g⟩ : Slot).held = g.ids ++ List.range' a.base (a.«end» - a.base) := rfl

/-- What holds of every allocator in a reachable state, with `bound` the end
stored under the key (`0` while it is missing). -/
structure Ok (start bound : Nat) (sl : Slot) : Prop where
  busy : ∀ g, sl.call = some g →
    sl.alloc.base = sl.alloc.«end» ∧ g.ids.Pairwise (· < ·) ∧ g.ids.length + g.rest = g.n ∧ g.rest ≤ g.growth
  start_le : start ≤ sl.alloc.base
  base_le : sl.alloc.base ≤ sl.alloc.«end»
  step_pos : 0 < sl.alloc.step
  held_lt : ∀ x ∈ sl.held, x < bound
  held_ge : ∀ x ∈ sl.held, start ≤ x

variable {start bound : Nat} {sl : Slot}

theorem Ok.mono {bound' : Nat} (h : sl.Ok start bound) (hle : bound ≤ bound') : sl.Ok start bound' :=
  { h with held_lt := fun x hx => Nat.lt_of_lt_of_le (h.held_lt x hx) hle }

theorem Ok.held_of_busy {g : Grow} (h : sl.Ok start bound) (hc : sl.call = some g) : sl.held = g.ids := by
  obtain ⟨a, c⟩ := sl
  subst hc
  rw [held_busy, (h.busy g rfl).1, Nat.sub_self, List.range'_zero, List.append_nil]

theorem Ok.allocN_done {n : Nat} {ids : List Nat} {e : EtcdAllocator} (h : sl.Ok start bound)
    (hc : sl.call = none) (ha : sl.alloc.allocN n = (.done ids, e)) :
    (⟨e, none⟩ : Slot).Ok start bound ∧ sl.held = ids ++ (⟨e, none⟩ : Slot).held ∧
      ids.length = n ∧ ids.Pairwise (· < ·) := by
  obtain ⟨a, c⟩ := sl
  simp only at hc ha
  subst hc
  obtain ⟨rfl, rfl, hn⟩ := EtcdAllocator.allocN_eq_done ha
  have hb := h.base_le
  simp only at hb
  -- the block splits into the IDs handed out and the block left
  have hsplit : (⟨a, none⟩ : Slot).held =
      List.range' a.base n ++ (⟨{ a with base := a.base + n }, none⟩ : Slot).held := by
    rw [held_idle, held_idle, List.range'_append_1]
    congr 1
    simp only
    omega
  have hsub : ∀ x ∈ (⟨{ a with base := a.base + n }, none⟩ : Slot).held, x ∈ (⟨a, none⟩ : Slot).held :=
    fun x hx => hsplit ▸ List.mem_append_right _ hx
  refine ⟨⟨fun _ h => (nomatch h), ?_, ?_, h.step_pos, fun x hx => h.held_lt x (hsub x hx),
    fun x hx => h.held_ge x (hsub x hx)⟩, hsplit, List.length_range', List.pairwise_lt_range'⟩
  · exact Nat.le_trans h.start_le (Nat.le_add_right _ _)
  · simp only
    omega

theorem Ok.allocN_grow {n : Nat} {g : Grow} {e : EtcdAllocator} (h : sl.Ok start bound)
    (hc : sl.call = none) (ha : sl.alloc.allocN n = (.grow g, e)) :
    (⟨e, some g⟩ : Slot).Ok start bound ∧ (⟨e, some g⟩ : Slot).held = sl.held := by
  obtain ⟨a, c⟩ := sl
  simp only at hc ha
  subst hc
  obtain ⟨hlt, rfl, rfl⟩ := EtcdAllocator.allocN_eq_grow ha
  -- the call holds the tail of the block, and the block is empty
  have hheld : (⟨{ a with base := a.«end» }, some ⟨n, List.range' a.base (a.«end» - a.base),
      n - (a.«end» - a.base), a.step * ((n - (a.«end» - a.base)) / a.step + 1), none⟩⟩ : Slot).held =
      (⟨a, none⟩ : Slot).held := by
    simp
  refine ⟨⟨?_, h.start_le.trans h.base_le, Nat.le_refl _, h.step_pos, hheld ▸ h.held_lt,
    hheld ▸ h.held_ge⟩, hheld⟩
  rintro g ⟨⟩
  refine ⟨rfl, List.pairwise_lt_range', ?_, ?_⟩
  · simp only [List.length_range']
    omega
  · exact Nat.le_of_lt (Nat.lt_mul_div_succ _ h.step_pos)

theorem Ok.getOne {g : Grow} (h : sl.Ok start bound) (hc : sl.call = some g) (r : Option (Option Nat)) :
    (⟨sl.alloc, some { g with read := r }⟩ : Slot).Ok start bound ∧
      (⟨sl.alloc, some { g with read := r }⟩ : Slot).held = sl.held := by
  have hheld : (⟨sl.alloc, some { g with read := r }⟩ : Slot).held = sl.held := by
    obtain ⟨a, c⟩ := sl
    simp only at hc
    subst hc
    rfl
  refine ⟨⟨?_, h.start_le, h.base_le, h.step_pos, hheld ▸ h.held_lt, hheld ▸ h.held_ge⟩, hheld⟩
  rintro g' ⟨⟩
  exact h.busy g hc

/-- A call that fails gives up the IDs it took; the block is empty. -/
theorem Ok.drop {g : Grow} (h : sl.Ok start bound) (hc : sl.call = some g) :
    (⟨sl.alloc, none⟩ : Slot).Ok start bound ∧ (⟨sl.alloc, none⟩ : Slot).held = [] := by
  have hheld : (⟨sl.alloc, none⟩ : Slot).held = [] := by
    rw [held_idle, (h.busy g hc).1, Nat.sub_self, List.range'_zero]
  refine ⟨⟨fun _ h => (nomatch h), h.start_le, h.base_le, h.step_pos, ?_, ?_⟩, hheld⟩ <;>
    simp [hheld]

/-- A call whose grow committed at `prevEnd`: it returns what it took with the
head of the new block, and keeps the rest of the block. -/
theorem Ok.finish {g : Grow} {prevEnd : Nat} (h : sl.Ok start bound) (hc : sl.call = some g)
    (hp : bound ≤ prevEnd) (hsp : start ≤ prevEnd) :
    (⟨(sl.alloc.finish g prevEnd).2, none⟩ : Slot).Ok start (prevEnd + g.growth) ∧
      (sl.held ++ List.range' prevEnd g.growth).Perm
        ((sl.alloc.finish g prevEnd).1 ++ (⟨(sl.alloc.finish g prevEnd).2, none⟩ : Slot).held) ∧
      (sl.alloc.finish g prevEnd).1.length = g.n ∧ (sl.alloc.finish g prevEnd).1.Pairwise (· < ·) := by
  obtain ⟨_, hids, hlen, hrest⟩ := h.busy g hc
  have hheld := h.held_of_busy hc
  -- the new block splits at `rest`
  have hsplit : sl.held ++ List.range' prevEnd g.growth =
      (g.ids ++ List.range' prevEnd g.rest) ++ List.range' (prevEnd + g.rest) (prevEnd + g.growth - (prevEnd + g.rest)) := by
    rw [hheld, List.append_assoc, List.range'_append_1]
    congr 2
    omega
  have hnew : (⟨(sl.alloc.finish g prevEnd).2, none⟩ : Slot).held =
      List.range' (prevEnd + g.rest) (prevEnd + g.growth - (prevEnd + g.rest)) := by
    simp [EtcdAllocator.finish]
  refine ⟨⟨fun _ h => (nomatch h), ?_, ?_, h.step_pos, ?_, ?_⟩, ?_, ?_, ?_⟩
  · simp only [EtcdAllocator.finish]; omega
  · simp only [EtcdAllocator.finish]; omega
  · intro x hx
    rw [hnew, List.mem_range'_1] at hx
    omega
  · intro x hx
    rw [hnew, List.mem_range'_1] at hx
    omega
  · rw [hsplit, hnew]; rfl
  · simp only [EtcdAllocator.finish, List.length_append, List.length_range']; omega
  · -- what the call took lies below the stored end, the new IDs above it
    refine List.pairwise_append.mpr ⟨hids, List.pairwise_lt_range', fun x hx y hy => ?_⟩
    have hxb := h.held_lt x (hheld ▸ hx)
    rw [List.mem_range'_1] at hy
    omega

theorem ok_new (start step bound : Nat) : (⟨newEtcdAllocator start step, none⟩ : Slot).Ok start bound :=
  ⟨fun _ h => (nomatch h), by simp, by simp, step_newEtcdAllocator_pos start step, by simp, by simp⟩

end Slot

namespace System
variable {s s' : System} {i : Nat} {sl : Slot}

@[simp] theorem set_slots_self : (s.set i sl).slots i = sl := Function.update_self _ _ _

theorem set_slots_of_ne {j : Nat} (h : j ≠ i) : (s.set i sl).slots j = s.slots j :=
  Function.update_of_ne h _ _

theorem held_set : (fun j => ((s.set i sl).slots j).held) = Function.update (fun j => (s.slots j).held) i sl.held := by
  funext j
  rcases eq_or_ne j i with rfl | hj
  · rw [set_slots_self, Function.update_self]
  · rw [set_slots_of_ne hj, Function.update_of_ne hj]

/-- A property of every allocator survives setting one to a state that has it. -/
theorem forall_slots_set (P : Slot → Prop) (hsl : P sl) (hall : ∀ j, P (s.slots j)) :
    ∀ j, P ((s.set i sl).slots j) := by
  intro j
  rcases eq_or_ne j i with rfl | hj
  · rwa [set_slots_self]
  · rw [set_slots_of_ne hj]; exact hall j

theorem returnedIds_append {n : Nat} {ids : List Nat} (h : s'.returned = s.returned ++ [(n, ids)]) :
    s'.returnedIds = s.returnedIds ++ ids := by
  simp [returnedIds, h]

theorem initial_new (start : Nat) (steps : Nat → Nat) : (new start steps).Initial start :=
  ⟨rfl, rfl, fun i => ⟨steps i, rfl⟩⟩

theorem reachable_run {start : Nat} {evs : List Event} (h : s.Reachable start) (hrun : s.run evs = some s') :
    s'.Reachable start := by
  induction evs generalizing s with
  | nil => cases hrun; exact h
  | cons ev evs ih =>
    simp only [run] at hrun
    obtain ⟨s₁, h₁, hrest⟩ := Option.bind_eq_some_iff.mp hrun
    exact ih (h.tail ⟨ev, h₁⟩) hrest

/-! ### What each event can do -/

theorem handle_allocN {n : Nat} (h : s.handle (.allocN i n) = some s') :
    (s.slots i).call = none ∧
      ((∃ ids e, (s.slots i).alloc.allocN n = (.done ids, e) ∧
          s' = { s.set i ⟨e, none⟩ with returned := s.returned ++ [(n, ids)] }) ∨
        ∃ g e, (s.slots i).alloc.allocN n = (.grow g, e) ∧ s' = s.set i ⟨e, some g⟩) := by
  simp only [handle] at h
  split at h
  · cases h
  · rename_i hc
    refine ⟨hc, ?_⟩
    split at h <;> rename_i ha
    · exact .inl ⟨_, _, ha, (Option.some.inj h).symm⟩
    · exact .inr ⟨_, _, ha, (Option.some.inj h).symm⟩

theorem handle_getOne (h : s.handle (.getOne i) = some s') :
    ∃ g, (s.slots i).call = some g ∧ g.read = none ∧
      s' = s.set i ⟨(s.slots i).alloc, some { g with read := some s.store }⟩ := by
  simp only [handle] at h
  split at h
  · rename_i g hc
    split_ifs at h with hr
    exact ⟨g, hc, hr, (Option.some.inj h).symm⟩
  · cases h

theorem handle_fail (h : s.handle (.fail i) = some s') :
    ∃ g, (s.slots i).call = some g ∧ s' = s.set i ⟨(s.slots i).alloc, none⟩ := by
  simp only [handle] at h
  split at h
  · exact ⟨_, ‹_›, (Option.some.inj h).symm⟩
  · cases h

theorem handle_commit {acked : Bool} (h : s.handle (.commit i acked) = some s') :
    ∃ g kv, (s.slots i).call = some g ∧ g.read = some kv ∧
      let prevEnd := (s.slots i).alloc.prevEnd kv
      (cmp s.store kv = true ∧ acked = true ∧
          s' = { s.set i ⟨((s.slots i).alloc.finish g prevEnd).2, none⟩ with
            store := some (prevEnd + g.growth),
            returned := s.returned ++ [(g.n, ((s.slots i).alloc.finish g prevEnd).1)] }) ∨
        (cmp s.store kv = true ∧ acked = false ∧
          s' = { s.set i ⟨(s.slots i).alloc, none⟩ with store := some (prevEnd + g.growth) }) ∨
        (cmp s.store kv = false ∧ s' = s.set i ⟨(s.slots i).alloc, none⟩) := by
  simp only [handle] at h
  split at h
  · rename_i g hc
    split at h
    · rename_i kv hkv
      refine ⟨g, kv, hc, hkv, ?_⟩
      split_ifs at h with hcmp hack
      · exact .inl ⟨hcmp, hack, (Option.some.inj h).symm⟩
      · exact .inr (.inl ⟨hcmp, by simpa using hack, (Option.some.inj h).symm⟩)
      · exact .inr (.inr ⟨by simpa using hcmp, (Option.some.inj h).symm⟩)
    · cases h
  · cases h

/-- A grow whose compare holds builds on an end at or above the stored one. -/
theorem prevEnd_bounds {start : Nat} {kv : Option Nat} {a : EtcdAllocator} (hcmp : cmp s.store kv = true)
    (hstore : ∀ v, s.store = some v → start ≤ v) (hbase : start ≤ a.base) :
    s.store.getD 0 ≤ a.prevEnd kv ∧ start ≤ a.prevEnd kv := by
  cases kv with
  | none =>
    have hnone : s.store = none := Option.isNone_iff_eq_none.mp hcmp
    rw [hnone]
    exact ⟨Nat.zero_le _, hbase⟩
  | some v =>
    have hsome : s.store = some v := by simpa [cmp] using hcmp
    rw [hsome]
    exact ⟨Nat.le_refl v, hstore v hsome⟩

/-! ### The invariant -/

/-- The invariant of the allocators on one key: the IDs they hold and those
returned are never held twice, all lie in `[start, stored end)`, and every
successful call returned its count of IDs in increasing order. -/
structure Inv (start : Nat) (s : System) : Prop where
  part : Partition (fun i => (s.slots i).held) s.returnedIds
  slots : ∀ i, (s.slots i).Ok start (s.store.getD 0)
  ret_lt : ∀ x ∈ s.returnedIds, x < s.store.getD 0
  ret_ge : ∀ x ∈ s.returnedIds, start ≤ x
  store_ge : ∀ v, s.store = some v → start ≤ v
  calls : ∀ r ∈ s.returned, r.2.length = r.1 ∧ r.2.Pairwise (· < ·)

variable {start : Nat}

theorem inv_initial (h : s.Initial start) : s.Inv start := by
  obtain ⟨hstore, hret, hslots⟩ := h
  have hids : s.returnedIds = [] := by simp [returnedIds, hret]
  refine ⟨Partition.of_nil (fun i => ?_) hids, fun i => ?_, by simp [hids], by simp [hids], by simp [hstore],
    by simp [hret]⟩
  · obtain ⟨step, hs⟩ := hslots i
    rw [hs]; simp
  · obtain ⟨step, hs⟩ := hslots i
    rw [hs]; exact Slot.ok_new start step _

theorem inv_allocN {n : Nat} (hi : s.Inv start) (h : s.handle (.allocN i n) = some s') : s'.Inv start := by
  obtain ⟨hc, ⟨ids, e, ha, rfl⟩ | ⟨g, e, ha, rfl⟩⟩ := handle_allocN h
  · obtain ⟨hok, hsplit, hlen, hpw⟩ := (hi.slots i).allocN_done hc ha
    have hret : ({ s.set i ⟨e, none⟩ with returned := s.returned ++ [(n, ids)] } : System).returnedIds =
        s.returnedIds ++ ids := returnedIds_append rfl
    -- the IDs handed out come from the allocator's own block
    have hmem : ∀ x ∈ ids, x ∈ (s.slots i).held := fun x hx => hsplit ▸ List.mem_append_left _ hx
    refine ⟨?_, forall_slots_set _ hok hi.slots, ?_, ?_, hi.store_ge, ?_⟩
    · show Partition (fun j => ((s.set i ⟨e, none⟩).slots j).held) _
      rw [held_set, hret]
      exact hi.part.release (List.Perm.of_eq hsplit)
    · rw [hret, List.forall_mem_append]
      exact ⟨hi.ret_lt, fun x hx => (hi.slots i).held_lt x (hmem x hx)⟩
    · rw [hret, List.forall_mem_append]
      exact ⟨hi.ret_ge, fun x hx => (hi.slots i).held_ge x (hmem x hx)⟩
    · exact List.forall_mem_append.mpr ⟨hi.calls, List.forall_mem_singleton.mpr ⟨hlen, hpw⟩⟩
  · obtain ⟨hok, hheld⟩ := (hi.slots i).allocN_grow hc ha
    refine ⟨?_, forall_slots_set _ hok hi.slots, hi.ret_lt, hi.ret_ge, hi.store_ge, hi.calls⟩
    rw [held_set, hheld, Function.update_eq_self]
    exact hi.part

theorem inv_getOne (hi : s.Inv start) (h : s.handle (.getOne i) = some s') : s'.Inv start := by
  obtain ⟨g, hc, -, rfl⟩ := handle_getOne h
  obtain ⟨hok, hheld⟩ := (hi.slots i).getOne hc (some s.store)
  refine ⟨?_, forall_slots_set _ hok hi.slots, hi.ret_lt, hi.ret_ge, hi.store_ge, hi.calls⟩
  rw [held_set, hheld, Function.update_eq_self]
  exact hi.part

/-- Allocator `i` ends its call with an error: it gives up what it took. -/
theorem inv_drop {g : Grow} (hi : s.Inv start) (hc : (s.slots i).call = some g) :
    (s.set i ⟨(s.slots i).alloc, none⟩).Inv start := by
  obtain ⟨hok, hheld⟩ := (hi.slots i).drop hc
  refine ⟨?_, forall_slots_set _ hok hi.slots, hi.ret_lt, hi.ret_ge, hi.store_ge, hi.calls⟩
  rw [held_set, hheld]
  exact hi.part.shrink (List.nil_sublist _)

theorem inv_fail (hi : s.Inv start) (h : s.handle (.fail i) = some s') : s'.Inv start := by
  obtain ⟨g, hc, rfl⟩ := handle_fail h
  exact inv_drop hi hc

/-- A grow that committed and whose reply arrived. -/
theorem inv_finish {g : Grow} {kv : Option Nat} (hi : s.Inv start) (hc : (s.slots i).call = some g)
    (hcmp : cmp s.store kv = true) :
    let prevEnd := (s.slots i).alloc.prevEnd kv
    ({ s.set i ⟨((s.slots i).alloc.finish g prevEnd).2, none⟩ with
        store := some (prevEnd + g.growth),
        returned := s.returned ++ [(g.n, ((s.slots i).alloc.finish g prevEnd).1)] } : System).Inv start := by
  intro p
  obtain ⟨hp, hsp⟩ := prevEnd_bounds hcmp hi.store_ge (hi.slots i).start_le
  obtain ⟨hok, hperm, hlen, hpw⟩ := (hi.slots i).finish hc hp hsp
  set ids := ((s.slots i).alloc.finish g p).1
  have hle : s.store.getD 0 ≤ p + g.growth := by omega
  have hblock : ∀ x ∈ List.range' p g.growth, p ≤ x ∧ x < p + g.growth := fun x hx => List.mem_range'_1.mp hx
  -- the new block is fresh: every ID in use lies below the stored end
  have hgrant := hi.part.grant i List.nodup_range'
    (fun x hx hl => by have := hi.ret_lt x hl; have := (hblock x hx).1; omega)
    (fun j x hx hj => by have := (hi.slots j).held_lt x hj; have := (hblock x hx).1; omega)
  have hrel := hgrant.release ((List.Perm.of_eq (Function.update_self i
    ((s.slots i).held ++ List.range' p g.growth) (fun j => (s.slots j).held))).trans hperm)
  rw [Function.update_idem] at hrel
  have hids : ∀ x ∈ ids, start ≤ x ∧ x < p + g.growth := by
    intro x hx
    rcases List.mem_append.mp (hperm.symm.subset (List.mem_append_left _ hx)) with hx' | hx'
    · exact ⟨(hi.slots i).held_ge x hx', Nat.lt_of_lt_of_le ((hi.slots i).held_lt x hx') hle⟩
    · have := hblock x hx'; omega
  have hret : ({ s.set i ⟨((s.slots i).alloc.finish g p).2, none⟩ with
      store := some (p + g.growth)
      returned := s.returned ++ [(g.n, ids)] } : System).returnedIds = s.returnedIds ++ ids :=
    returnedIds_append rfl
  refine ⟨?_, forall_slots_set _ hok (fun j => (hi.slots j).mono hle), ?_, ?_, ?_, ?_⟩
  · show Partition (fun j => ((s.set i _).slots j).held) _
    rw [held_set, hret]
    exact hrel
  · rw [hret, List.forall_mem_append]
    exact ⟨fun x hx => Nat.lt_of_lt_of_le (hi.ret_lt x hx) hle, fun x hx => (hids x hx).2⟩
  · rw [hret, List.forall_mem_append]
    exact ⟨hi.ret_ge, fun x hx => (hids x hx).1⟩
  · rintro v ⟨⟩
    omega
  · exact List.forall_mem_append.mpr ⟨hi.calls, List.forall_mem_singleton.mpr ⟨hlen, hpw⟩⟩

theorem inv_commit {acked : Bool} (hi : s.Inv start) (h : s.handle (.commit i acked) = some s') :
    s'.Inv start := by
  obtain ⟨g, kv, hc, -, ⟨hcmp, -, rfl⟩ | ⟨hcmp, -, rfl⟩ | ⟨-, rfl⟩⟩ := handle_commit h
  · exact inv_finish hi hc hcmp
  · -- the key moved on, but the call failed and keeps nothing
    obtain ⟨hp, hsp⟩ := prevEnd_bounds hcmp hi.store_ge (hi.slots i).start_le
    have hd := inv_drop hi hc
    have hle : s.store.getD 0 ≤ (s.slots i).alloc.prevEnd kv + g.growth := by omega
    refine ⟨hd.part, fun j => (hd.slots j).mono hle, fun x hx => Nat.lt_of_lt_of_le (hi.ret_lt x hx) hle,
      hi.ret_ge, ?_, hi.calls⟩
    rintro v ⟨⟩
    omega
  · exact inv_drop hi hc

theorem inv_step (hi : s.Inv start) (h : s.Step s') : s'.Inv start := by
  obtain ⟨ev, h⟩ := h
  cases ev with
  | allocN i n => exact inv_allocN hi h
  | getOne i => exact inv_getOne hi h
  | commit i acked => exact inv_commit hi h
  | fail i => exact inv_fail hi h

theorem Reachable.inv (h : s.Reachable start) : s.Inv start :=
  Trace.Reachable.invariant (Inv start) (fun _ => inv_initial) (fun _ _ hi hs => inv_step hi hs) h

/-- **No ID is handed out twice.** However the calls of the allocators on one
key interleave, including grows that fail after taking the tail of a block,
the IDs of all successful `AllocN` calls are pairwise distinct; each call
returned as many IDs as it asked for, in increasing order; and none lies below
`start`. -/
theorem allocN_ids_unique (h : s.Reachable start) :
    s.returnedIds.Nodup ∧ (∀ r ∈ s.returned, r.2.length = r.1 ∧ r.2.Pairwise (· < ·)) ∧
      ∀ x ∈ s.returnedIds, start ≤ x := by
  have hi := h.inv
  exact ⟨hi.part.log_nodup, hi.calls, hi.ret_ge⟩

/-- Two leaders with step 3: the new one grows while the old one's grow is in
flight, so the old one's transaction fails and the ID `2` it took is lost. -/
def twoLeaders : List Event :=
  [.allocN 0 2, .getOne 0, .commit 0 true, .allocN 1 1, .getOne 1, .allocN 0 2, .getOne 0,
   .commit 1 true, .commit 0 true, .allocN 1 2]

theorem allocN_ids_unique_two_leaders :
    ∃ s, (new 0 fun _ => 3).run twoLeaders = some s ∧
      s.returned = [(2, [0, 1]), (1, [3]), (2, [4, 5])] ∧
      s.returnedIds.Nodup ∧ (∀ r ∈ s.returned, r.2.length = r.1 ∧ r.2.Pairwise (· < ·)) ∧
      ∀ x ∈ s.returnedIds, 0 ≤ x := by
  have hs : (new 0 fun _ => 3).run twoLeaders = some _ := rfl
  exact ⟨_, hs, rfl, allocN_ids_unique (reachable_run (Trace.Reachable.of_init (initial_new 0 _)) hs)⟩

end System

end ElasticStream.Placement.Id
