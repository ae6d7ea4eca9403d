import ElasticStream.Kv.Optimistic

/-! # Stream and range metadata in the placement driver

The endpoint (pd/pkg/server/storage/endpoint) keeps a stream under its stream
key and its ranges under range keys ordered by index. `CreateRange`,
`SealRange`, `TrimStream`, `DeleteStream` and `UpdateStream` each run a
closure in `ExecInTxn`; here each closure is a transaction body over the keys
of one stream. The values are the fields of `rpcfb.StreamT` and
`rpcfb.RangeT` that the closures read or write; servers, replica and ack
counts of a range, and the texts of the errors are left out. -/

namespace ElasticStream.Placement
open ElasticStream.Kv ElasticStream.Collections

structure StreamT where
  replica : Int
  ackCount : Int
  retentionPeriodMs : Int
  startOffset : Int
  epoch : Int
  deleted : Bool
  deriving DecidableEq, Repr

structure RangeT where
  epoch : Int
  index : Int
  start : Int
  «end» : Int
  deriving DecidableEq, Repr

def writableRangeEnd : Int := -1

def minRangeIndex : Nat := 0

/-- The keys of one stream: the stream key and the range key of each index,
in key order. -/
inductive Key where
  | stream
  | range (i : Nat)
  deriving DecidableEq, Repr

namespace Key

def toNat : Key → Nat
  | .stream => 0
  | .range i => i + 1

theorem toNat_injective : Function.Injective toNat := by
  intro a b h
  cases a <;> cases b <;> simp_all [toNat]

instance : LinearOrder Key := LinearOrder.lift' toNat toNat_injective

def isRange : Key → Bool
  | .stream => false
  | .range _ => true

/-- The range keys in `[rangePathInSteam(lo), rangePathInSteam(hi))`. -/
def rangeBetween (lo hi : Nat) : Key → Bool
  | .stream => false
  | .range i => decide (lo ≤ i ∧ i < hi)

end Key

inductive Value where
  | stream (s : StreamT)
  | range (r : RangeT)
  deriving DecidableEq, Repr

def Value.stream? : Value → Option StreamT
  | .stream s => some s
  | .range _ => none

def Value.range? : Value → Option RangeT
  | .range r => some r
  | .stream _ => none

/-- The `model.Err*` errors of the endpoint. The twice-errors carry the range
the call returns with them. -/
inductive PdError where
  | streamNotFound
  | invalidStreamEpoch
  | createRangeTwice (r : RangeT)
  | rangeAlreadyExist
  | invalidRangeIndex
  | createRangeBeforeSeal
  | invalidRangeStart
  | notEnoughRangeServers
  | rangeNotFound
  | sealRangeTwice (r : RangeT)
  | rangeAlreadySealed
  | invalidRangeEnd
  | invalidStreamOffset
  | kvDataModified
  | kvTxnFailed
  deriving DecidableEq, Repr

/-- What a call returns on success. -/
inductive Reply where
  | range (r : RangeT)
  | stream (s : StreamT)
  | trimmed (s : StreamT) (r : RangeT)
  deriving DecidableEq, Repr

abbrev Store := SortedMap Key Value

abbrev PdBody := Body Key Value (Except PdError Reply)

/-! ### Parameters, as `model.New*Param` validates them -/

structure CreateRangeParam where
  epoch : Int
  index : Nat
  start : Int
  deriving DecidableEq, Repr

structure SealRangeParam where
  epoch : Int
  index : Nat
  «end» : Int
  deriving DecidableEq, Repr

structure TrimStreamParam where
  startOffset : Int
  epoch : Int
  deriving DecidableEq, Repr

structure DeleteStreamParam where
  epoch : Int
  deriving DecidableEq, Repr

/-- A negative field means no change. -/
structure UpdateStreamParam where
  replica : Int
  ackCount : Int
  retentionPeriodMs : Int
  epoch : Int
  deriving DecidableEq, Repr

/-! ### The closures -/

/-- `kv.Get` of the stream key, unpacked. -/
def getStream (k : Option StreamT → PdBody) : PdBody :=
  .get .stream fun v => k (v.bind Value.stream?)

/-- `kv.Get` of a range key, unpacked. -/
def getRange (i : Nat) (k : Option RangeT → PdBody) : PdBody :=
  .get (.range i) fun v => k (v.bind Value.range?)

def fail (e : PdError) : PdBody := .ret (.error e)

/-- The previous range of a new range at `index`; the first range gets a mock
one that ends at `0`. -/
def withPrevious (index : Nat) (k : RangeT → PdBody) : PdBody :=
  if index = minRangeIndex then k ⟨0, -1, 0, 0⟩
  else getRange (index - 1) fun
    | none => fail .invalidRangeIndex
    | some pr => k pr

/-- The closure of `Endpoint.CreateRange`; `serversOk` says whether the
`ChooseServersFunc` found servers. -/
def createRange (p : CreateRangeParam) (serversOk : Bool) : PdBody :=
  getStream fun
  | none => fail .streamNotFound
  | some s =>
    if s.deleted then fail .streamNotFound
    else if s.epoch ≠ p.epoch then fail .invalidStreamEpoch
    else getRange p.index fun
      | some r =>
        if r.epoch = p.epoch ∧ r.start = p.start then fail (.createRangeTwice r) else fail .rangeAlreadyExist
      | none => withPrevious p.index fun pr =>
        if pr.«end» = writableRangeEnd then fail .createRangeBeforeSeal
        else if p.start ≠ pr.«end» then fail .invalidRangeStart
        else if !serversOk then fail .notEnoughRangeServers
        else
          let r : RangeT := ⟨p.epoch, p.index, p.start, writableRangeEnd⟩
          .write (.put (.range p.index) (.range r)) (.ret (.ok (.range r)))

/-- The closure of `Endpoint.SealRange`. -/
def sealRange (p : SealRangeParam) : PdBody :=
  getStream fun
  | none => fail .streamNotFound
  | some s =>
    if s.deleted then fail .streamNotFound
    else if s.epoch ≠ p.epoch then fail .invalidStreamEpoch
    else getRange p.index fun
      | none => fail .rangeNotFound
      | some r =>
        if r.«end» ≠ writableRangeEnd then
          if r.«end» = p.«end» then fail (.sealRangeTwice r) else fail .rangeAlreadySealed
        else if p.«end» < r.start then fail .invalidRangeEnd
        else
          let r := { r with «end» := p.«end» }
          .write (.put (.range p.index) (.range r)) (.ret (.ok (.range r)))

/-- The closure of `Endpoint.DeleteStream`: a deleted stream is returned as it
is, with no write. -/
def deleteStream (p : DeleteStreamParam) : PdBody :=
  getStream fun
  | none => fail .streamNotFound
  | some s =>
    if s.deleted then .ret (.ok (.stream s))
    else if p.epoch ≠ s.epoch then fail .invalidStreamEpoch
    else
      let s := { s with deleted := true }
      .write (.put .stream (.stream s)) <| .write (.delete Key.isRange) <| .ret (.ok (.stream s))

/-- The closure of `Endpoint.TrimStream`, given the range `getRangeByOffset`
found before the transaction. -/
def trimStream (p : TrimStreamParam) (firstRange : Option RangeT) : PdBody :=
  getStream fun
  | none => fail .streamNotFound
  | some s =>
    if s.deleted then fail .streamNotFound
    else if p.epoch ≠ s.epoch then fail .invalidStreamEpoch
    else if p.startOffset < s.startOffset then fail .invalidStreamOffset
    else match firstRange with
      | none => fail .rangeNotFound
      | some fr =>
        let s := { s with startOffset := p.startOffset }
        .write (.put .stream (.stream s)) <| getRange fr.index.toNat fun
          | none => fail .rangeNotFound
          | some r =>
            let r := { r with start := p.startOffset }
            .write (.put (.range fr.index.toNat) (.range r)) <|
              .write (.delete (Key.rangeBetween minRangeIndex fr.index.toNat)) <| .ret (.ok (.trimmed s r))

/-- The incremental update of `Endpoint.UpdateStream`: replica, ack count and
retention, each if its parameter says so. -/
def incrementalUpdate (p : UpdateStreamParam) (s : StreamT) : StreamT :=
  let s := if p.replica > 0 then { s with replica := p.replica } else s
  let s := if p.ackCount > 0 then { s with ackCount := p.ackCount } else s
  if p.retentionPeriodMs ≥ 0 then { s with retentionPeriodMs := p.retentionPeriodMs } else s

/-- Put the stream and return it. -/
def putStream (s : StreamT) : PdBody := .write (.put .stream (.stream s)) (.ret (.ok (.stream s)))

/-- The closure of `Endpoint.UpdateStream`. -/
def updateStream (p : UpdateStreamParam) : PdBody :=
  getStream fun
  | none => fail .streamNotFound
  | some s =>
    if s.deleted then fail .streamNotFound
    else
      let s := incrementalUpdate p s
      if p.epoch ≥ 0 then
        if p.epoch < s.epoch then fail .invalidStreamEpoch else putStream { s with epoch := p.epoch }
      else putStream s

/-! ### What a closure does when it succeeds

Each lemma below runs a closure at once on one store and says everything a
successful run can have done: the checks that passed on the values read and
the writes queued. -/

/-- The stream under the stream key. -/
def streamAt (m : Store) : Option StreamT := (m.find? .stream).bind Value.stream?

/-- The range under the key of index `i`. -/
def rangeAt (m : Store) (i : Nat) : Option RangeT := (m.find? (.range i)).bind Value.range?

section Atomic
variable (m : Store)

@[simp] theorem getStream_atomic (k : Option StreamT → PdBody) : (getStream k).atomic m = (k (streamAt m)).atomic m :=
  rfl

@[simp] theorem getRange_atomic (i : Nat) (k : Option RangeT → PdBody) :
    (getRange i k).atomic m = (k (rangeAt m i)).atomic m := rfl

@[simp] theorem fail_atomic (e : PdError) : (fail e).atomic m = ([], .error e) := rfl

theorem withPrevious_atomic (index : Nat) (k : RangeT → PdBody) :
    (withPrevious index k).atomic m =
      if index = minRangeIndex then (k ⟨0, -1, 0, 0⟩).atomic m
      else match rangeAt m (index - 1) with
        | none => ([], .error .invalidRangeIndex)
        | some pr => (k pr).atomic m := by
  unfold withPrevious
  split_ifs
  · rfl
  · rw [getRange_atomic]
    cases rangeAt m (index - 1) <;> rfl

end Atomic

variable {m : Store} {ops : List (Op Key Value)} {r : Reply}

theorem createRange_ok {p : CreateRangeParam} {serversOk : Bool}
    (h : (createRange p serversOk).atomic m = (ops, .ok r)) :
    ∃ st, streamAt m = some st ∧ st.deleted = false ∧ st.epoch = p.epoch ∧ rangeAt m p.index = none ∧
      ops = [.put (.range p.index) (.range ⟨p.epoch, p.index, p.start, writableRangeEnd⟩)] := by
  simp only [createRange, getStream_atomic] at h
  cases hs : streamAt m with
  | none => simp [hs] at h
  | some st =>
    simp only [hs] at h
    by_cases hdel : st.deleted = true
    · rw [if_pos hdel] at h; simp at h
    rw [if_neg hdel] at h
    by_cases hep : st.epoch ≠ p.epoch
    · rw [if_pos hep] at h; simp at h
    rw [if_neg hep, getRange_atomic] at h
    cases hr : rangeAt m p.index with
    | some rr =>
      simp only [hr] at h
      split_ifs at h <;> simp at h
    | none =>
      simp only [hr, withPrevious_atomic] at h
      -- the previous range, real or mocked, only decides whether the write happens
      have hwrite : ∀ pr : RangeT, (if pr.«end» = writableRangeEnd then fail .createRangeBeforeSeal
          else if p.start ≠ pr.«end» then fail .invalidRangeStart
          else if !serversOk then fail .notEnoughRangeServers
          else .write (.put (.range p.index) (.range ⟨p.epoch, p.index, p.start, writableRangeEnd⟩))
            (.ret (.ok (.range ⟨p.epoch, p.index, p.start, writableRangeEnd⟩))) : PdBody).atomic m = (ops, .ok r) →
          ops = [.put (.range p.index) (.range ⟨p.epoch, p.index, p.start, writableRangeEnd⟩)] := by
        intro pr hpr
        split_ifs at hpr
        · simp at hpr
        · simp at hpr
        · simp at hpr
        · exact (Prod.mk.inj hpr).1.symm
      refine ⟨st, rfl, by simpa using hdel, by simpa using hep, rfl, ?_⟩
      by_cases hi : p.index = minRangeIndex
      · rw [if_pos hi] at h
        exact hwrite ⟨0, -1, 0, 0⟩ h
      · rw [if_neg hi] at h
        cases hpr : rangeAt m (p.index - 1) with
        | none => simp [hpr] at h
        | some pr =>
          simp only [hpr] at h
          exact hwrite pr h

theorem sealRange_ok {p : SealRangeParam} (h : (sealRange p).atomic m = (ops, .ok r)) :
    ∃ st rr, streamAt m = some st ∧ st.deleted = false ∧ st.epoch = p.epoch ∧ rangeAt m p.index = some rr ∧
      rr.«end» = writableRangeEnd ∧ rr.start ≤ p.«end» ∧
      ops = [.put (.range p.index) (.range { rr with «end» := p.«end» })] := by
  simp only [sealRange, getStream_atomic] at h
  cases hs : streamAt m with
  | none => simp [hs] at h
  | some st =>
    simp only [hs] at h
    by_cases hdel : st.deleted = true
    · rw [if_pos hdel] at h; simp at h
    rw [if_neg hdel] at h
    by_cases hep : st.epoch ≠ p.epoch
    · rw [if_pos hep] at h; simp at h
    rw [if_neg hep, getRange_atomic] at h
    cases hr : rangeAt m p.index with
    | none => simp [hr] at h
    | some rr =>
      simp only [hr] at h
      by_cases hend : rr.«end» ≠ writableRangeEnd
      · rw [if_pos hend] at h; split_ifs at h <;> simp at h
      rw [if_neg hend] at h
      by_cases hlt : p.«end» < rr.start
      · rw [if_pos hlt] at h; simp at h
      rw [if_neg hlt] at h
      exact ⟨st, rr, rfl, by simpa using hdel, by simpa using hep, rfl, by simpa using hend,
        Int.not_lt.mp hlt, (Prod.mk.inj h).1.symm⟩

theorem trimStream_ok {p : TrimStreamParam} {fr : Option RangeT} (h : (trimStream p fr).atomic m = (ops, .ok r)) :
    ∃ st f rr, streamAt m = some st ∧ st.deleted = false ∧ st.epoch = p.epoch ∧
      st.startOffset ≤ p.startOffset ∧ fr = some f ∧ rangeAt m f.index.toNat = some rr ∧
      ops = [.put .stream (.stream { st with startOffset := p.startOffset }),
        .put (.range f.index.toNat) (.range { rr with start := p.startOffset }),
        .delete (Key.rangeBetween minRangeIndex f.index.toNat)] := by
  simp only [trimStream, getStream_atomic] at h
  cases hs : streamAt m with
  | none => simp [hs] at h
  | some st =>
    simp only [hs] at h
    by_cases hdel : st.deleted = true
    · rw [if_pos hdel] at h; simp at h
    rw [if_neg hdel] at h
    by_cases hep : p.epoch ≠ st.epoch
    · rw [if_pos hep] at h; simp at h
    rw [if_neg hep] at h
    by_cases hlt : p.startOffset < st.startOffset
    · rw [if_pos hlt] at h; simp at h
    rw [if_neg hlt] at h
    cases fr with
    | none => simp at h
    | some f =>
      simp only [atomic_write, getRange_atomic] at h
      cases hr : rangeAt m f.index.toNat with
      | none => simp [hr] at h
      | some rr =>
        simp only [hr, atomic_write, atomic_ret] at h
        exact ⟨st, f, rr, rfl, by simpa using hdel, (not_not.mp hep).symm, Int.not_lt.mp hlt, rfl, hr,
          (Prod.mk.inj h).1.symm⟩

theorem deleteStream_ok {p : DeleteStreamParam} (h : (deleteStream p).atomic m = (ops, .ok r)) :
    ∃ st, streamAt m = some st ∧
      ((st.deleted = true ∧ ops = []) ∨
        (st.deleted = false ∧ st.epoch = p.epoch ∧
          ops = [.put .stream (.stream { st with deleted := true }), .delete Key.isRange])) := by
  simp only [deleteStream, getStream_atomic] at h
  cases hs : streamAt m with
  | none => simp [hs] at h
  | some st =>
    simp only [hs] at h
    refine ⟨st, rfl, ?_⟩
    by_cases hdel : st.deleted = true
    · rw [if_pos hdel] at h
      exact .inl ⟨hdel, (Prod.mk.inj h).1.symm⟩
    rw [if_neg hdel] at h
    by_cases hep : p.epoch ≠ st.epoch
    · rw [if_pos hep] at h; simp at h
    rw [if_neg hep] at h
    exact .inr ⟨by simpa using hdel, (not_not.mp hep).symm, (Prod.mk.inj h).1.symm⟩

@[simp] theorem epoch_incrementalUpdate (p : UpdateStreamParam) (s : StreamT) :
    (incrementalUpdate p s).epoch = s.epoch := by
  unfold incrementalUpdate
  split_ifs <;> rfl

theorem putStream_atomic (s : StreamT) : (putStream s).atomic m = ([.put .stream (.stream s)], .ok (.stream s)) :=
  rfl

/-- An update writes a stream whose epoch is at least the stored one. -/
theorem updateStream_ok {p : UpdateStreamParam} (h : (updateStream p).atomic m = (ops, .ok r)) :
    ∃ st s', streamAt m = some st ∧ st.deleted = false ∧ st.epoch ≤ s'.epoch ∧ ops = [.put .stream (.stream s')] := by
  simp only [updateStream, getStream_atomic] at h
  cases hs : streamAt m with
  | none => simp [hs] at h
  | some st =>
    simp only [hs] at h
    by_cases hdel : st.deleted = true
    · rw [if_pos hdel] at h; simp at h
    rw [if_neg hdel] at h
    have hdel' : st.deleted = false := by simpa using hdel
    by_cases hpos : p.epoch ≥ 0
    · rw [if_pos hpos] at h
      by_cases hlt : p.epoch < (incrementalUpdate p st).epoch
      · rw [if_pos hlt] at h; simp at h
      rw [if_neg hlt, putStream_atomic] at h
      exact ⟨st, _, rfl, hdel', by simpa using hlt, (Prod.mk.inj h).1.symm⟩
    · rw [if_neg hpos, putStream_atomic] at h
      exact ⟨st, _, rfl, hdel', by simp, (Prod.mk.inj h).1.symm⟩

/-! ### Reading the ranges outside a transaction -/

/-- The ranges of the stream in key order, as `ForEachRangeInStream` visits them. -/
def rangesOf (m : Store) : List RangeT :=
  m.entries.filterMap fun e => if e.1.isRange then e.2.range? else none

/-- The loop of `getRangeByOffset`: the range holding `offset`; at an offset
equal to a range's end, a later range starting there wins. -/
def getRangeByOffset (offset : Int) : List RangeT → Option RangeT → Option RangeT
  | [], found => found
  | r :: rs, found =>
    -- ranges are sorted by offset: `errStop`
    if offset < r.start then found
    -- `errFound`
    else if r.«end» = writableRangeEnd ∨ offset < r.«end» then some r
    else if offset = r.«end» then getRangeByOffset offset rs (some r)
    else getRangeByOffset offset rs found

end ElasticStream.Placement
