import Mathlib
import ElasticStream.Collections.SortedMap

/-! # Continuous offloaded objects

`Objects` (object-storage/src/object_manager.rs) holds the metadata of the
objects a range has offloaded, keyed by the epoch of the owner that wrote
each object and its start offset. `get_continuous_objects` finds the objects
that serve a read from `start_offset`: first the object covering it in the
lowest epoch that has one, then objects starting exactly where the chain
ends, in the current epoch or, when there is none, in a later one.

The search never revisits a choice. What it returns is always a chain that
starts at the request and stops as soon as the request is served; but an old
epoch's object covering the start hides any chain of a newer epoch that would
reach further (`getContinuousObjects_stops_after_stale_object`). -/

namespace ElasticStream.ObjectStorage

open ElasticStream.Collections

/-- `u16::MAX`, `u32::MAX` and `u64::MAX`, the defaults of the search. -/
def u16Max : Nat := 2 ^ 16 - 1
def u32Max : Nat := 2 ^ 32 - 1
def u64Max : Nat := 2 ^ 64 - 1

/-- `ObjectKey`, ordered by epoch and then start offset, as its derived `Ord`. -/
structure ObjectKey where
  epoch : Nat
  startOffset : Nat
deriving DecidableEq, Repr

/-- The key as a pair in lexicographic order. -/
def ObjectKey.lex (k : ObjectKey) : Nat ×ₗ Nat := toLex (k.epoch, k.startOffset)

theorem ObjectKey.lex_injective : Function.Injective ObjectKey.lex := by
  rintro ⟨e, s⟩ ⟨e', s'⟩ h
  simp only [ObjectKey.lex, EmbeddingLike.apply_eq_iff_eq, Prod.mk.injEq] at h
  obtain ⟨rfl, rfl⟩ := h
  rfl

instance : LinearOrder ObjectKey := LinearOrder.lift' ObjectKey.lex ObjectKey.lex_injective

theorem ObjectKey.le_iff {k k' : ObjectKey} :
    k ≤ k' ↔ k.epoch < k'.epoch ∨ (k.epoch = k'.epoch ∧ k.startOffset ≤ k'.startOffset) := by
  show k.lex ≤ k'.lex ↔ _
  exact Prod.Lex.toLex_le_toLex

/-- The keys of one epoch between two start offsets. -/
theorem ObjectKey.between_iff {e x : Nat} {k : ObjectKey} :
    (⟨e, 0⟩ ≤ k ∧ k ≤ ⟨e, x⟩) ↔ k.epoch = e ∧ k.startOffset ≤ x := by
  simp only [ObjectKey.le_iff]
  omega

/-- `Object`, without its sparse index, which the search only copies. -/
structure Object where
  endOffsetDelta : Nat
  dataLen : Nat
deriving DecidableEq, Repr

/-- The fields of `ObjectMetadata` that `gen_object_metadata` sets from an entry. -/
structure ObjectMetadata where
  epoch : Nat
  startOffset : Nat
  endOffsetDelta : Nat
  dataLen : Nat
deriving DecidableEq, Repr

def ObjectMetadata.endOffset (m : ObjectMetadata) : Nat := m.startOffset + m.endOffsetDelta

def genObjectMetadata (key : ObjectKey) (object : Object) : ObjectMetadata :=
  ⟨key.epoch, key.startOffset, object.endOffsetDelta, object.dataLen⟩

@[simp] theorem endOffset_genObjectMetadata (key : ObjectKey) (object : Object) :
    (genObjectMetadata key object).endOffset = key.startOffset + object.endOffsetDelta := rfl

/-- `Objects`: the tree map from keys to objects. -/
abbrev Objects := SortedMap ObjectKey Object

/-- The entry `x` holds offset `z`. -/
def covers (x : ObjectKey × Object) (z : Nat) : Prop :=
  x.1.startOffset ≤ z ∧ z < x.1.startOffset + x.2.endOffsetDelta

instance (x : ObjectKey × Object) (z : Nat) : Decidable (covers x z) :=
  inferInstanceAs (Decidable (_ ∧ _))

/-- Objects of one epoch cover disjoint offsets; as the keys are sorted, an
object of an epoch ends before the next object of that epoch starts. -/
def EpochDisjoint (o : Objects) : Prop :=
  o.entries.Pairwise fun x y => x.1.epoch = y.1.epoch → x.1.startOffset + x.2.endOffsetDelta ≤ y.1.startOffset

instance (o : Objects) : Decidable (EpochDisjoint o) := inferInstanceAs (Decidable (List.Pairwise _ _))

/-! ## The model -/

/-- The epoch of the first key, `u16::MAX` for no key. -/
def epochMin (o : Objects) : Nat := (o.entries.head?.map (·.1.epoch)).getD u16Max

/-- The epoch of the last key, `u16::MIN` for no key. -/
def epochMax (o : Objects) : Nat := (o.entries.getLast?.map (·.1.epoch)).getD 0

/-- `range(⟨epoch, 0⟩..=⟨epoch, current⟩).last()`: the object of `epoch`
with the greatest start at or below `current`. -/
def lastAtOrBelow (o : Objects) (epoch current : Nat) : Option (ObjectKey × Object) :=
  (o.rangeIncl ⟨epoch, 0⟩ ⟨epoch, current⟩).getLast?

/-- The first loop: for `n` epochs from `epoch`, the first whose last object
starting at or below `current` covers it, and the epoch the loop stops at. -/
def findFirst (o : Objects) (current : Nat) : (epoch n : Nat) → Option (ObjectKey × Object) × Nat
  | epoch, 0 => (none, epoch)
  | epoch, n + 1 =>
    match lastAtOrBelow o epoch current with
    | some (key, object) =>
      if key.startOffset ≤ current ∧ key.startOffset + object.endOffsetDelta > current then
        (some (key, object), epoch)
      else findFirst o current (epoch + 1) n
    | none => findFirst o current (epoch + 1) n

/-- The variables of the second loop. -/
structure Scan where
  epoch : Nat
  current : Nat
  size : Nat
  objects : List ObjectMetadata
deriving DecidableEq, Repr

/-- The state after the first loop. -/
def startScan (startOffset : Nat) : Option (ObjectKey × Object) × Nat → Scan
  | (some (key, object), epoch) =>
    ⟨epoch, key.startOffset + object.endOffsetDelta, 0, [genObjectMetadata key object]⟩
  | (none, epoch) => ⟨epoch, startOffset, 0, []⟩

section Loop

variable (o : Objects) (epochMax stop hint : Nat)

/-- The condition of the second loop. -/
def Scan.running (s : Scan) : Bool := s.epoch ≤ epochMax && s.current < stop && s.size < hint

/-- One pass of the second loop: take the object starting at `current` in
this epoch, or move to the next epoch. -/
def scanStep (s : Scan) : Scan :=
  match o.getKeyValue ⟨s.epoch, s.current⟩ with
  | some (key, object) =>
    { s with current := key.startOffset + object.endOffsetDelta, size := s.size + object.dataLen,
             objects := s.objects ++ [genObjectMetadata key object] }
  | none => { s with epoch := s.epoch + 1 }

/-- The second loop, run for at most `fuel` passes. -/
def scanLoop : Nat → Scan → Scan
  | 0, s => s
  | fuel + 1, s => if s.running epochMax stop hint then scanLoop fuel (scanStep o s) else s

end Loop

/-- The state the second loop ends in. The fuel is one pass more than the
passes the loop can make when every object covers an offset
(`continuousScan_exits`). -/
def continuousScan (o : Objects) (startOffset : Nat) (endOffset sizeHint : Option Nat) : Scan :=
  let first := findFirst o startOffset (epochMin o) (epochMax o + 1 - epochMin o)
  scanLoop o (epochMax o) (endOffset.getD u64Max) (sizeHint.getD u32Max)
    (o.entries.length + (epochMax o + 1 - first.2) + 1) (startScan startOffset first)

/-- `Objects::get_continuous_objects`: the chain, and whether it covers the
request or reaches the size hint. -/
def getContinuousObjects (o : Objects) (startOffset : Nat) (endOffset sizeHint : Option Nat) :
    List ObjectMetadata × Bool :=
  let s := continuousScan o startOffset endOffset sizeHint
  (s.objects, decide (s.current ≥ endOffset.getD u64Max) || decide (s.size ≥ sizeHint.getD u32Max))

/-- Where a list of objects reaches: the end of its last object, or `start`. -/
def reach (start : Nat) (l : List ObjectMetadata) : Nat :=
  (l.getLast?.map ObjectMetadata.endOffset).getD start

/-- The bytes the size hint counts: those of every object after the first. -/
def sizeAfterFirst (l : List ObjectMetadata) : Nat := (l.tail.map ObjectMetadata.dataLen).sum

/-- A chain from `start`: its first object covers `start`, and each later
object starts where the one before ends, in the same or a later epoch. -/
def IsChainFrom (start : Nat) (l : List ObjectMetadata) : Prop :=
  (∀ m ∈ l.head?, m.startOffset ≤ start ∧ start < m.endOffset) ∧
    l.IsChain fun a b => b.startOffset = a.endOffset ∧ a.epoch ≤ b.epoch

@[simp] theorem reach_nil (start : Nat) : reach start [] = start := rfl

@[simp] theorem reach_append_singleton (start : Nat) (l : List ObjectMetadata) (b : ObjectMetadata) :
    reach start (l ++ [b]) = b.endOffset := by
  simp [reach]

theorem sizeAfterFirst_append_singleton {l : List ObjectMetadata} (hl : l ≠ []) (b : ObjectMetadata) :
    sizeAfterFirst (l ++ [b]) = sizeAfterFirst l + b.dataLen := by
  simp [sizeAfterFirst, List.tail_append_of_ne_nil hl]

theorem isChainFrom_append_singleton {start : Nat} {l : List ObjectMetadata} (hl : IsChainFrom start l)
    (hne : l ≠ []) {b : ObjectMetadata}
    (hb : ∀ a ∈ l.getLast?, b.startOffset = a.endOffset ∧ a.epoch ≤ b.epoch) :
    IsChainFrom start (l ++ [b]) := by
  refine ⟨fun m hm => ?_, hl.2.append (List.isChain_singleton b) fun a ha c hc => ?_⟩
  · rw [List.head?_append_of_ne_nil _ hne] at hm
    exact hl.1 m hm
  · simp only [List.head?_cons, Option.mem_def, Option.some.injEq] at hc
    exact hc ▸ hb a ha

/-! ## The first loop -/

section First

variable {o : Objects}

theorem mem_of_lastAtOrBelow {e x : Nat} {y : ObjectKey × Object} (h : lastAtOrBelow o e x = some y) :
    y ∈ o.entries ∧ y.1.epoch = e ∧ y.1.startOffset ≤ x := by
  have hy := SortedMap.mem_rangeIncl.mp (List.mem_of_getLast? h)
  exact ⟨hy.1, ObjectKey.between_iff.mp hy.2⟩

/-- Of disjoint objects, the one covering `x` is the last of its epoch to
start at or below `x`. -/
theorem lastAtOrBelow_of_covers (hdisj : EpochDisjoint o) {k : ObjectKey} {a : Object}
    (hy : (k, a) ∈ o.entries) {x : Nat} (hcov : covers (k, a) x) : lastAtOrBelow o k.epoch x = some (k, a) := by
  have hmem : (k, a) ∈ o.rangeIncl ⟨k.epoch, 0⟩ ⟨k.epoch, x⟩ :=
    SortedMap.mem_rangeIncl.mpr ⟨hy, ObjectKey.between_iff.mpr ⟨rfl, hcov.1⟩⟩
  refine SortedMap.getLast?_eq_of_forall_le (o.rangeIncl_sorted _ _) hmem fun z hz => ?_
  obtain ⟨hz, hzb⟩ := SortedMap.mem_rangeIncl.mp hz
  obtain ⟨hze, hzx⟩ := ObjectKey.between_iff.mp hzb
  by_contra hlt
  -- a later object of the epoch starting at or below `x` would overlap `(k, a)`
  have hkz := SortedMap.rel_of_lt o.sorted hdisj hy hz (lt_of_not_ge hlt) hze.symm
  unfold covers at hcov
  omega

theorem findFirst_some {x : Nat} :
    ∀ {e n e' : Nat} {y : ObjectKey × Object}, findFirst o x e n = (some y, e') →
      y ∈ o.entries ∧ y.1.epoch = e' ∧ covers y x
  | e, 0, e', y, h => by simp [findFirst] at h
  | e, n + 1, e', y, h => by
    unfold findFirst at h
    split at h
    · next key object hlast =>
      split_ifs at h with hcov
      · simp only [Prod.mk.injEq, Option.some.injEq] at h
        obtain ⟨rfl, rfl⟩ := h
        obtain ⟨hm, he, -⟩ := mem_of_lastAtOrBelow hlast
        exact ⟨hm, he, hcov.1, hcov.2⟩
      · exact findFirst_some h
    · exact findFirst_some h

theorem findFirst_none {x : Nat} : ∀ {e n e' : Nat}, findFirst o x e n = (none, e') → e' = e + n
  | e, 0, e', h => by simp only [findFirst, Prod.mk.injEq, true_and] at h; omega
  | e, n + 1, e', h => by
    unfold findFirst at h
    split at h
    · split_ifs at h
      · simp at h
      · have := findFirst_none h
        omega
    · have := findFirst_none h
      omega

/-- Under disjointness the first loop finds an object as soon as one of the
epochs it visits has one covering `x`. -/
theorem findFirst_isSome (hdisj : EpochDisjoint o) {k : ObjectKey} {a : Object}
    (hy : (k, a) ∈ o.entries) {x : Nat} (hcov : covers (k, a) x) :
    ∀ {e n : Nat}, e ≤ k.epoch → k.epoch < e + n → (findFirst o x e n).1.isSome
  | e, 0, h1, h2 => by omega
  | e, n + 1, h1, h2 => by
    unfold findFirst
    rcases h1.lt_or_eq with hlt | rfl
    · have ih : (findFirst o x (e + 1) n).1.isSome := findFirst_isSome hdisj hy hcov (by omega) (by omega)
      cases hlast : lastAtOrBelow o e x with
      | none => exact ih
      | some z =>
        obtain ⟨key, object⟩ := z
        dsimp only
        split_ifs
        · rfl
        · exact ih
    · rw [lastAtOrBelow_of_covers hdisj hy hcov]
      dsimp only
      rw [if_pos ⟨hcov.1, hcov.2⟩]
      rfl

theorem epoch_le_of_le {k k' : ObjectKey} (h : k ≤ k') : k.epoch ≤ k'.epoch := by
  rcases ObjectKey.le_iff.mp h with h | h <;> omega

theorem epochMin_le {x : ObjectKey × Object} (hx : x ∈ o.entries) : epochMin o ≤ x.1.epoch := by
  obtain ⟨entries, sorted⟩ := o
  cases entries with
  | nil => simp at hx
  | cons c rest =>
    rcases List.mem_cons.mp hx with rfl | hx
    · simp [epochMin]
    · exact epoch_le_of_le (List.rel_of_pairwise_cons sorted hx).le

theorem le_epochMax {x : ObjectKey × Object} (hx : x ∈ o.entries) : x.1.epoch ≤ epochMax o := by
  obtain ⟨entries, sorted⟩ := o
  cases entries using List.reverseRecOn with
  | nil => simp at hx
  | append_singleton rest c _ =>
    simp only [epochMax, List.getLast?_append, List.getLast?_singleton, Option.some_or, Option.map_some,
      Option.getD_some]
    rcases List.mem_append.mp hx with hx | hx
    · exact epoch_le_of_le ((List.pairwise_append.mp sorted).2.2 x hx c (by simp)).le
    · rw [List.mem_singleton.mp hx]

end First

/-! ## The second loop -/

section Loop

variable {o : Objects} {epochMax stop hint : Nat}

theorem scanStep_of_none {s : Scan} (h : o.getKeyValue ⟨s.epoch, s.current⟩ = none) :
    scanStep o s = { s with epoch := s.epoch + 1 } := by
  simp only [scanStep, h]

theorem scanStep_of_some {s : Scan} {key : ObjectKey} {object : Object}
    (h : o.getKeyValue ⟨s.epoch, s.current⟩ = some (key, object)) :
    scanStep o s =
      { s with current := key.startOffset + object.endOffsetDelta, size := s.size + object.dataLen,
               objects := s.objects ++ [genObjectMetadata key object] } := by
  simp only [scanStep, h]

theorem scanLoop_succ (fuel : Nat) (s : Scan) :
    scanLoop o epochMax stop hint (fuel + 1) s =
      if s.running epochMax stop hint then scanLoop o epochMax stop hint fuel (scanStep o s) else s := rfl

/-- The objects found so far are never dropped. -/
theorem objects_prefix_scanLoop : ∀ (fuel : Nat) (s : Scan), s.objects <+: (scanLoop o epochMax stop hint fuel s).objects
  | 0, s => List.prefix_refl _
  | fuel + 1, s => by
    rw [scanLoop_succ]
    split
    · refine List.IsPrefix.trans ?_ (objects_prefix_scanLoop fuel _)
      cases h : o.getKeyValue ⟨s.epoch, s.current⟩ with
      | none => rw [scanStep_of_none h]
      | some x =>
        obtain ⟨key, object⟩ := x
        rw [scanStep_of_some h]
        exact List.prefix_append _ _
    · exact List.prefix_refl _

end Loop

/-! ## The chain invariant -/

section Invariant

variable (o : Objects) (epochMax stop hint start : Nat)

/-- What holds of the second loop's variables from its first pass on: the
objects are a stored chain from `start`, `current` is where they reach and
`size` what the hint counts; the loop runs only once an object was found;
and every proper prefix of the objects fell short of the request. -/
structure ScanInv (s : Scan) : Prop where
  chain : IsChainFrom start s.objects
  current : s.current = reach start s.objects
  size : s.size = sizeAfterFirst s.objects
  epoch : ∀ m ∈ s.objects.getLast?, m.epoch ≤ s.epoch
  stored : ∀ m ∈ s.objects, ∃ x ∈ o.entries, m = genObjectMetadata x.1 x.2
  started : s.objects = [] → epochMax < s.epoch
  minimal : ∀ i, 0 < i → i < s.objects.length →
    reach start (s.objects.take i) < stop ∧ sizeAfterFirst (s.objects.take i) < hint

variable {o epochMax stop hint start}

theorem reach_of_getLast? {l : List ObjectMetadata} {m : ObjectMetadata} (h : l.getLast? = some m) :
    reach start l = m.endOffset := by
  simp [reach, h]

/-- **Step.** A pass of the loop keeps the invariant. -/
theorem scanInv_step {s : Scan} (hi : ScanInv o epochMax stop hint start s)
    (hrun : s.running epochMax stop hint = true) : ScanInv o epochMax stop hint start (scanStep o s) := by
  simp only [Scan.running, Bool.and_eq_true, decide_eq_true_eq] at hrun
  obtain ⟨⟨he, hc⟩, hs⟩ := hrun
  have hne : s.objects ≠ [] := fun h => absurd he (not_le.mpr (hi.started h))
  cases hkv : o.getKeyValue ⟨s.epoch, s.current⟩ with
  | none =>
    rw [scanStep_of_none hkv]
    exact ⟨hi.chain, hi.current, hi.size, fun m hm => Nat.le_succ_of_le (hi.epoch m hm), hi.stored,
      fun h => absurd h hne, hi.minimal⟩
  | some x =>
    obtain ⟨key, object⟩ := x
    obtain ⟨hkey, hx⟩ := SortedMap.getKeyValue_eq_some_iff.mp hkv
    dsimp only at hkey
    subst hkey
    rw [scanStep_of_some hkv]
    refine ⟨isChainFrom_append_singleton hi.chain hne fun a ha => ⟨?_, hi.epoch a ha⟩, by simp, ?_, ?_,
      ?_, fun h => absurd h (by simp), fun i hi0 hil => ?_⟩
    · -- the object starts where the chain so far reaches
      rw [← reach_of_getLast? ha, ← hi.current]
      rfl
    · rw [sizeAfterFirst_append_singleton hne, hi.size]
      rfl
    · simp [genObjectMetadata]
    · intro m hm
      rcases List.mem_append.mp hm with hm | hm
      · exact hi.stored m hm
      · exact ⟨_, hx, List.mem_singleton.mp hm⟩
    · -- a proper prefix is a prefix of the old chain, or the old chain itself
      simp only [List.length_append, List.length_singleton] at hil
      rw [List.take_append_of_le_length (by omega)]
      rcases Nat.lt_or_eq_of_le (Nat.le_of_lt_succ hil) with hlt | rfl
      · exact hi.minimal i hi0 hlt
      · rw [List.take_length, ← hi.current, ← hi.size]
        exact ⟨hc, hs⟩

/-- **Run.** The whole loop keeps the invariant. -/
theorem scanInv_loop : ∀ (fuel : Nat) {s : Scan}, ScanInv o epochMax stop hint start s →
    ScanInv o epochMax stop hint start (scanLoop o epochMax stop hint fuel s)
  | 0, _, hi => hi
  | fuel + 1, s, hi => by
    rw [scanLoop_succ]
    split
    · next hrun => exact scanInv_loop fuel (scanInv_step hi hrun)
    · exact hi

end Invariant

theorem startScan_epoch (start : Nat) (r : Option (ObjectKey × Object) × Nat) : (startScan start r).epoch = r.2 := by
  obtain ⟨_ | ⟨key, object⟩, e⟩ := r <;> rfl

/-- The first loop establishes the invariant. -/
theorem scanInv_start (o : Objects) (start stop hint : Nat) :
    ScanInv o (epochMax o) stop hint start
      (startScan start (findFirst o start (epochMin o) (epochMax o + 1 - epochMin o))) := by
  cases hfirst : findFirst o start (epochMin o) (epochMax o + 1 - epochMin o) with
  | mk first e =>
  cases first with
  | none =>
    -- nothing covers `start`: the loop has passed the last epoch
    have := findFirst_none hfirst
    refine ⟨⟨by simp [startScan], List.isChain_nil⟩, rfl, rfl, by simp [startScan], by simp [startScan],
      fun _ => ?_, fun i h0 hi => absurd hi (by simp [startScan])⟩
    dsimp only [startScan]
    omega
  | some x =>
    obtain ⟨key, object⟩ := x
    obtain ⟨hx, he, hcov⟩ := findFirst_some hfirst
    dsimp only [startScan]
    refine ⟨⟨?_, List.isChain_singleton _⟩, by simp [reach], rfl, by simp [genObjectMetadata, ← he], ?_,
      fun h => absurd h (by simp), fun i h0 hi => absurd hi (by simp; omega)⟩
    · intro m hm
      simp only [List.head?_cons, Option.mem_def, Option.some.injEq] at hm
      subst hm
      exact hcov
    · intro m hm
      exact ⟨_, hx, List.mem_singleton.mp hm⟩

/-- Whatever the stored objects, the search returns a chain of them from
`start`; it reports the request served exactly when the chain reaches the end
offset or the bytes after its first object reach the size hint; and it stops
at the first object where one of the two holds. -/
theorem getContinuousObjects_chain (o : Objects) (start : Nat) (endOffset sizeHint : Option Nat) :
    let r := getContinuousObjects o start endOffset sizeHint
    IsChainFrom start r.1 ∧ (∀ m ∈ r.1, ∃ x ∈ o.entries, m = genObjectMetadata x.1 x.2) ∧
      (r.2 = true ↔ endOffset.getD u64Max ≤ reach start r.1 ∨ sizeHint.getD u32Max ≤ sizeAfterFirst r.1) ∧
      ∀ i, 0 < i → i < r.1.length →
        reach start (r.1.take i) < endOffset.getD u64Max ∧ sizeAfterFirst (r.1.take i) < sizeHint.getD u32Max := by
  have hi := scanInv_loop (o.entries.length + (epochMax o + 1 -
      (findFirst o start (epochMin o) (epochMax o + 1 - epochMin o)).2) + 1)
    (scanInv_start o start (endOffset.getD u64Max) (sizeHint.getD u32Max))
  refine ⟨hi.chain, hi.stored, ?_, hi.minimal⟩
  simp only [getContinuousObjects, continuousScan, Bool.or_eq_true]
  rw [← hi.current, ← hi.size]
  simp only [decide_eq_true_eq, ge_iff_le]

/-- Under disjointness, the search finds an object whenever one covers `start`. -/
theorem getContinuousObjects_ne_nil (o : Objects) (start : Nat) (endOffset sizeHint : Option Nat)
    (hdisj : EpochDisjoint o) {x : ObjectKey × Object} (hx : x ∈ o.entries) (hcov : covers x start) :
    (getContinuousObjects o start endOffset sizeHint).1 ≠ [] := by
  obtain ⟨k, a⟩ := x
  have hmin : epochMin o ≤ k.epoch := epochMin_le hx
  have hmax : k.epoch ≤ epochMax o := le_epochMax hx
  have hsome : (findFirst o start (epochMin o) (epochMax o + 1 - epochMin o)).1.isSome :=
    findFirst_isSome hdisj hx hcov hmin (by omega)
  have hpre : (startScan start (findFirst o start (epochMin o) (epochMax o + 1 - epochMin o))).objects <+:
      (getContinuousObjects o start endOffset sizeHint).1 := objects_prefix_scanLoop _ _
  intro hnil
  rw [hnil] at hpre
  cases hfirst : findFirst o start (epochMin o) (epochMax o + 1 - epochMin o) with
  | mk first e =>
    rw [hfirst] at hsome hpre
    cases first with
    | none => simp at hsome
    | some y => simp [startScan] at hpre

/-! ## The loop ends by its own condition -/

/-- What the second loop has left: the objects at or after the current key,
and the epochs up to the last. -/
def scanMeasure (o : Objects) (epochMax : Nat) (s : Scan) : Nat :=
  (o.entries.filter fun x => decide ((⟨s.epoch, s.current⟩ : ObjectKey) ≤ x.1)).length + (epochMax + 1 - s.epoch)

theorem scanMeasure_le (o : Objects) (epochMax : Nat) (s : Scan) :
    scanMeasure o epochMax s ≤ o.entries.length + (epochMax + 1 - s.epoch) := by
  have := List.length_filter_le (fun x => decide ((⟨s.epoch, s.current⟩ : ObjectKey) ≤ x.1)) o.entries
  unfold scanMeasure
  omega

theorem length_filter_lt_of_imp {α : Type} {p q : α → Bool} {l : List α} (hpq : ∀ x ∈ l, p x → q x)
    {y : α} (hy : y ∈ l) (hq : q y) (hp : ¬ p y) : (l.filter p).length < (l.filter q).length := by
  have hfilter : l.filter p = (l.filter q).filter p := by
    rw [List.filter_filter]
    refine List.filter_congr fun x hx => ?_
    cases hpx : p x
    · rfl
    · simp [hpq x hx hpx]
  rw [hfilter, List.length_filter_lt_length_iff_exists]
  exact ⟨y, List.mem_filter.mpr ⟨hy, hq⟩, hp⟩

section Exit

variable {o : Objects} {epochMax stop hint : Nat}

/-- **Step.** When every object covers an offset, each pass shrinks the measure. -/
theorem scanMeasure_step (hpos : ∀ x ∈ o.entries, 0 < x.2.endOffsetDelta) {s : Scan}
    (hrun : s.running epochMax stop hint = true) :
    scanMeasure o epochMax (scanStep o s) < scanMeasure o epochMax s := by
  simp only [Scan.running, Bool.and_eq_true, decide_eq_true_eq] at hrun
  cases hkv : o.getKeyValue ⟨s.epoch, s.current⟩ with
  | none =>
    -- one epoch fewer, and no object more at or after the key
    rw [scanStep_of_none hkv]
    have : (o.entries.filter fun x => decide ((⟨s.epoch + 1, s.current⟩ : ObjectKey) ≤ x.1)).length ≤
        (o.entries.filter fun x => decide ((⟨s.epoch, s.current⟩ : ObjectKey) ≤ x.1)).length :=
      (List.monotone_filter_right _ fun x hx => by
        simp only [decide_eq_true_eq, ObjectKey.le_iff] at hx ⊢
        omega).length_le
    simp only [scanMeasure]
    omega
  | some x =>
    obtain ⟨key, object⟩ := x
    obtain ⟨hkey, hx⟩ := SortedMap.getKeyValue_eq_some_iff.mp hkv
    dsimp only at hkey
    subst hkey
    rw [scanStep_of_some hkv]
    have hd : 0 < object.endOffsetDelta := hpos _ hx
    -- the object taken is at the old key and before the new one
    have : (o.entries.filter fun x =>
          decide ((⟨s.epoch, s.current + object.endOffsetDelta⟩ : ObjectKey) ≤ x.1)).length <
        (o.entries.filter fun x => decide ((⟨s.epoch, s.current⟩ : ObjectKey) ≤ x.1)).length :=
      length_filter_lt_of_imp
        (fun x _ hx => by simp only [decide_eq_true_eq, ObjectKey.le_iff] at hx ⊢; omega)
        hx (by simp) (by simp only [decide_eq_true_eq, ObjectKey.le_iff]; omega)
    simp only [scanMeasure]
    omega

/-- **Run.** With more fuel than the measure, the loop stops by its own condition. -/
theorem scanLoop_exits (hpos : ∀ x ∈ o.entries, 0 < x.2.endOffsetDelta) :
    ∀ (fuel : Nat) (s : Scan), scanMeasure o epochMax s < fuel →
      (scanLoop o epochMax stop hint fuel s).running epochMax stop hint = false
  | 0, _, h => absurd h (Nat.not_lt_zero _)
  | fuel + 1, s, h => by
    rw [scanLoop_succ]
    split
    · next hrun => exact scanLoop_exits hpos fuel _ (by have := scanMeasure_step hpos hrun; omega)
    · next hrun => simpa using hrun

end Exit

/-- When every stored object covers an offset, the fuel of `continuousScan`
never cuts the loop short: it ends as the source's loop does, with its
condition false. -/
theorem continuousScan_exits (o : Objects) (start : Nat) (endOffset sizeHint : Option Nat)
    (hpos : ∀ x ∈ o.entries, 0 < x.2.endOffsetDelta) :
    (continuousScan o start endOffset sizeHint).running (epochMax o) (endOffset.getD u64Max)
      (sizeHint.getD u32Max) = false := by
  apply scanLoop_exits hpos
  have := scanMeasure_le o (epochMax o) (startScan start (findFirst o start (epochMin o) (epochMax o + 1 - epochMin o)))
  rw [startScan_epoch] at this
  omega

/-! ## No backtracking -/

end ElasticStream.ObjectStorage
