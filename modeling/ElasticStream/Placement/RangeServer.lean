import Mathlib
import ElasticStream.Codec.Cursor

/-! # Choosing the range servers of a new range

`RaftCluster.chooseRangeServers` (pd/pkg/server/cluster/rangeserver.go) picks
`cnt` servers among those `Cache.ActiveRangeServers` finds active, writable
and with free disk. Servers of the gray set, the previous range's servers,
are taken only as far as the others fall short; the rest are taken round
robin from a shared counter, which each call advances once, by an atomic
add. The counter's value is an input here, so every interleaving of callers
is covered. The cache is a map keyed by server id, iterated in an order of
its own: it is a list of servers with distinct ids, in any order. -/

namespace ElasticStream.Placement

open ElasticStream.Codec

/-- `rpcfb.RangeServerState`. -/
inductive RangeServerState where
  | unspecified
  | readOnly
  | readWrite
  | offline
  deriving DecidableEq, Repr, Inhabited

/-- The field of `rpcfb.RangeServerMetricsT` that the selection reads. -/
structure RangeServerMetrics where
  diskFreeSpace : Nat
  deriving DecidableEq, Repr

/-- `cache.RangeServer`: `LastActiveTime` and `Metrics` are `nil` when never
reported. -/
structure RangeServer where
  serverId : Int
  state : RangeServerState
  lastActiveTime : Option Int
  metrics : Option RangeServerMetrics
  deriving DecidableEq, Repr, Inhabited

/-- The range servers of the cache, one per server id; a Go map holds fewer
than `2^63` entries. -/
structure Cache where
  rangeServers : List RangeServer
  ids_nodup : (rangeServers.map (·.serverId)).Nodup
  length_lt : rangeServers.length < 2 ^ 63

/-- The three tests of `ActiveRangeServers` that a server must pass: seen
within `timeout` of `now`, read-write, and not out of disk. -/
def RangeServer.available (now timeout : Int) (rs : RangeServer) : Bool :=
  (match rs.lastActiveTime with
    | none => false
    | some t => !(now - t > timeout)) &&
  rs.state == .readWrite &&
  (match rs.metrics with
    | some m => m.diskFreeSpace != 0
    | none => true)

/-- `Cache.ActiveRangeServers`: the white list and the gray list. -/
def activeRangeServers (now timeout : Int) (grayServerIds : List Int) :
    List RangeServer → List RangeServer × List RangeServer
  | [] => ([], [])
  | rs :: rest =>
    let (white, gray) := activeRangeServers now timeout grayServerIds rest
    if !rs.available now timeout then (white, gray)
    else if rs.serverId ∈ grayServerIds then (white, rs :: gray)
    else (rs :: white, gray)

/-- The loop over the gray list: take a gray server while `cnt` exceeds the
white list. -/
def chooseGray (whiteLen : Nat) : List RangeServer → Int → List Int × Int
  | [], cnt => ([], cnt)
  | rs :: rest, cnt =>
    if cnt > whiteLen then
      let (ids, cnt') := chooseGray whiteLen rest (cnt - 1)
      (rs.serverId :: ids, cnt')
    else ([], cnt)

/-- `wRangeServers[(idx - uint64(i)) % uint64(len(wRangeServers))]`: Go
panics on `% 0` and on an index out of range. -/
def pickWhite (white : List RangeServer) (idx : UInt64) (i : Nat) : Outcome ε Int :=
  if UInt64.ofNat white.length = 0 then .panic
  else liftM (white[((idx - UInt64.ofNat i) % UInt64.ofNat white.length).toNat]?.map (·.serverId))

/-- The round-robin loop, for `i` from `i` on, `n` times. -/
def roundRobin (white : List RangeServer) (idx : UInt64) : Nat → Nat → Outcome ε (List Int)
  | _, 0 => pure []
  | i, n + 1 => do
    let id ← pickWhite white idx i
    let ids ← roundRobin white idx (i + 1) n
    pure (id :: ids)

/-- `model.ErrNotEnoughRangeServers`, with the counts of its message. -/
inductive ChooseError where
  | notEnoughRangeServers (required available : Int)
  deriving DecidableEq, Repr

/-- `RaftCluster.chooseRangeServers`: the ids of the chosen servers and the
round-robin counter after the call. -/
def chooseRangeServers (c : Cache) (now timeout : Int) (rangeServerIdx : UInt64) (cnt : Int)
    (grayServerIds : List Int) : Outcome ChooseError (List Int × UInt64) :=
  if cnt ≤ 0 then pure ([], rangeServerIdx)
  else
    let (white, gray) := activeRangeServers now timeout grayServerIds c.rangeServers
    if cnt > white.length + gray.length then
      .error (.notEnoughRangeServers cnt (white.length + gray.length))
    else
      let (grayIds, cnt) := chooseGray white.length gray cnt
      let idx := rangeServerIdx + UInt64.ofNat cnt.toNat
      do
        let ids ← roundRobin white idx 0 cnt.toNat
        pure (grayIds ++ ids, idx)

/-! ## The two lists -/

theorem activeRangeServers_eq (now timeout : Int) (g : List Int) : ∀ l : List RangeServer,
    activeRangeServers now timeout g l =
      (l.filter fun rs => rs.available now timeout && !decide (rs.serverId ∈ g),
        l.filter fun rs => rs.available now timeout && decide (rs.serverId ∈ g))
  | [] => rfl
  | rs :: rest => by
    simp only [activeRangeServers, activeRangeServers_eq now timeout g rest]
    by_cases ha : rs.available now timeout <;> by_cases hg : rs.serverId ∈ g <;>
      simp [ha, hg]

/-- The white and gray lists split the available servers. -/
theorem length_filter_split (p q : RangeServer → Bool) : ∀ l : List RangeServer,
    (l.filter fun x => p x && !q x).length + (l.filter fun x => p x && q x).length =
      (l.filter p).length
  | [] => rfl
  | x :: l => by
    have := length_filter_split p q l
    by_cases hp : p x <;> by_cases hq : q x <;> simp [hp, hq] <;> omega

/-! ## The gray servers -/

/-- The gray loop takes the first `cnt - len(white)` gray servers, as many as
there are, and leaves `cnt` short by as many. -/
theorem chooseGray_eq (w : Nat) : ∀ (gray : List RangeServer) (cnt : Int),
    chooseGray w gray cnt =
      ((gray.take (cnt - w).toNat).map (·.serverId), cnt - min (cnt - w).toNat gray.length)
  | [], cnt => by simp [chooseGray]
  | rs :: rest, cnt => by
    unfold chooseGray
    by_cases hmore : cnt > w
    · -- one gray server taken: the count still to take drops by one
      have hsucc : (cnt - w).toNat = (cnt - 1 - w).toNat + 1 := by omega
      rw [if_pos hmore, chooseGray_eq w rest (cnt - 1), hsucc, List.take_succ_cons, List.map_cons,
        List.length_cons]
      simp only [Prod.mk.injEq, true_and]
      omega
    · have hzero : (cnt - w).toNat = 0 := by omega
      rw [if_neg hmore, hzero]
      simp

/-! ## The round robin -/

/-- The slot `(idx - uint64(i)) % uint64(len)` of the round robin, as a list
index. -/
def slot (len : Nat) (idx : UInt64) (i : Nat) : Nat :=
  ((idx - UInt64.ofNat i) % UInt64.ofNat len).toNat

theorem toNat_ofNat_of_lt {n : Nat} (h : n < 2 ^ 64) : (UInt64.ofNat n).toNat = n := by
  simp only [UInt64.toNat_ofNat']
  exact Nat.mod_eq_of_lt h

theorem slot_lt {len : Nat} (hlen : 0 < len) (hlt : len < 2 ^ 64) (idx : UInt64) (i : Nat) :
    slot len idx i < len := by
  unfold slot
  rw [UInt64.toNat_mod, toNat_ofNat_of_lt hlt]
  exact Nat.mod_lt _ hlen

/-- Before the counter wraps, the slot is plain arithmetic. -/
theorem slot_eq {len : Nat} (hlt : len < 2 ^ 64) {idx : UInt64} {i : Nat} (hi : i ≤ idx.toNat) :
    slot len idx i = (idx.toNat - i) % len := by
  have hidx := idx.toNat_lt
  unfold slot
  rw [UInt64.toNat_mod, toNat_ofNat_of_lt hlt, UInt64.toNat_sub, toNat_ofNat_of_lt (by omega)]
  congr 1
  omega

/-- `cnt ≤ len` consecutive slots below the counter are distinct. -/
theorem slot_injective {len : Nat} (hlt : len < 2 ^ 64) {idx : UInt64} {n : Nat} (hn : n ≤ len)
    (hidx : n ≤ idx.toNat) {i j : Nat} (hi : i < n) (hj : j < n) (h : slot len idx i = slot len idx j) :
    i = j := by
  rw [slot_eq hlt (by omega), slot_eq hlt (by omega)] at h
  -- adding `i + j` to both sides turns `idx - i ≡ idx - j` into `idx + j ≡ idx + i`
  have hshift : idx.toNat + j ≡ idx.toNat + i [MOD len] := by
    have hsum : idx.toNat - i + (i + j) ≡ idx.toNat - j + (i + j) [MOD len] := Nat.ModEq.add_right _ h
    have e1 : idx.toNat - i + (i + j) = idx.toNat + j := by omega
    have e2 : idx.toNat - j + (i + j) = idx.toNat + i := by omega
    rwa [e1, e2] at hsum
  have hji : j ≡ i [MOD len] := Nat.ModEq.add_left_cancel' _ hshift
  exact (hji.eq_of_lt_of_lt (by omega) (by omega)).symm

/-- The ids the round robin takes, from slot `i` on, `n` of them. -/
def roundRobinIds (white : List RangeServer) (idx : UInt64) (i n : Nat) : List Int :=
  (List.range' i n).map fun j => (white.getD (slot white.length idx j) default).serverId

theorem roundRobin_eq {white : List RangeServer} (hlen : 0 < white.length) (hlt : white.length < 2 ^ 64)
    (idx : UInt64) : ∀ i n, (roundRobin white idx i n : Outcome ε (List Int)) = .ok (roundRobinIds white idx i n)
  | i, 0 => rfl
  | i, n + 1 => by
    have hpick : (pickWhite white idx i : Outcome ε Int) =
        .ok (white.getD (slot white.length idx i) default).serverId := by
      have hne : UInt64.ofNat white.length ≠ 0 := by
        intro h
        have := congrArg UInt64.toNat h
        rw [toNat_ofNat_of_lt hlt, UInt64.toNat_zero] at this
        omega
      unfold pickWhite
      rw [if_neg hne]
      change liftM ((white[slot white.length idx i]?).map (·.serverId)) = _
      rw [List.getElem?_eq_getElem (slot_lt hlen hlt idx i), Option.map_some, Outcome.liftM_some,
        List.getD_eq_getElem _ _ (slot_lt hlen hlt idx i)]
    simp only [roundRobin, hpick, Outcome.ok_bind, roundRobin_eq hlen hlt idx (i + 1) n, Outcome.pure_eq,
      roundRobinIds, List.range'_succ, List.map_cons]

theorem mem_roundRobinIds {white : List RangeServer} (hlen : 0 < white.length) (hlt : white.length < 2 ^ 64)
    {idx : UInt64} {i n : Nat} {id : Int} (h : id ∈ roundRobinIds white idx i n) :
    id ∈ white.map (·.serverId) := by
  obtain ⟨j, -, rfl⟩ := List.mem_map.mp h
  rw [List.getD_eq_getElem _ _ (slot_lt hlen hlt idx j)]
  exact List.mem_map_of_mem (List.getElem_mem _)

/-- Before the counter wraps, at most `len(white)` round-robin picks are
distinct servers. -/
theorem roundRobinIds_nodup {white : List RangeServer} (hnodup : (white.map (·.serverId)).Nodup)
    (hlen : 0 < white.length) (hlt : white.length < 2 ^ 64) {idx : UInt64} {n : Nat}
    (hn : n ≤ white.length) (hidx : n ≤ idx.toNat) : (roundRobinIds white idx 0 n).Nodup := by
  refine List.Nodup.map_on (fun i hi j hj hij => ?_) List.nodup_range'
  rw [List.mem_range'_1] at hi hj
  rw [List.getD_eq_getElem _ _ (slot_lt hlen hlt idx i),
    List.getD_eq_getElem _ _ (slot_lt hlen hlt idx j)] at hij
  have hslot : slot white.length idx i = slot white.length idx j := by
    have hi' : slot white.length idx i < (white.map (·.serverId)).length := by
      simpa using slot_lt hlen hlt idx i
    have hj' : slot white.length idx j < (white.map (·.serverId)).length := by
      simpa using slot_lt hlen hlt idx j
    exact (@List.Nodup.getElem_inj_iff _ _ hnodup _ hi' _ hj').mp (by simpa using hij)
  exact slot_injective hlt hn hidx (by omega) (by omega) hslot

/-! ## The selection -/

section Choose

variable (c : Cache) (now timeout : Int) (g : List Int)

/-- The white list: available servers outside the gray set. -/
def whiteOf : List RangeServer :=
  c.rangeServers.filter fun rs => rs.available now timeout && !decide (rs.serverId ∈ g)

/-- The gray list: available servers of the gray set. -/
def grayOf : List RangeServer :=
  c.rangeServers.filter fun rs => rs.available now timeout && decide (rs.serverId ∈ g)

theorem activeRangeServers_cache :
    activeRangeServers now timeout g c.rangeServers = (whiteOf c now timeout g, grayOf c now timeout g) :=
  activeRangeServers_eq now timeout g c.rangeServers

theorem nodup_ids_filter (p : RangeServer → Bool) : ((c.rangeServers.filter p).map (·.serverId)).Nodup :=
  c.ids_nodup.sublist (List.filter_sublist.map _)

theorem length_filter_lt (p : RangeServer → Bool) : (c.rangeServers.filter p).length < 2 ^ 64 := by
  have := List.length_filter_le p c.rangeServers
  have := c.length_lt
  omega

variable {c now timeout g}

theorem chooseRangeServers_of_lt {cnt : Int} (rangeServerIdx : UInt64) (hcnt : 0 < cnt)
    (hmore : ((whiteOf c now timeout g).length + (grayOf c now timeout g).length : Int) < cnt) :
    chooseRangeServers c now timeout rangeServerIdx cnt g =
      .error (.notEnoughRangeServers cnt ((whiteOf c now timeout g).length + (grayOf c now timeout g).length)) := by
  unfold chooseRangeServers
  rw [if_neg (by omega), activeRangeServers_cache]
  exact if_pos hmore

/-- Enough servers: the first `cnt - len(white)` gray servers, then the
round robin over the white list for the rest. -/
theorem chooseRangeServers_of_le {cnt : Int} (rangeServerIdx : UInt64) (hcnt : 0 < cnt)
    (henough : cnt ≤ ((whiteOf c now timeout g).length + (grayOf c now timeout g).length : Int)) :
    let k := (cnt - (whiteOf c now timeout g).length).toNat
    let n := (cnt - k).toNat
    chooseRangeServers c now timeout rangeServerIdx cnt g =
      .ok (((grayOf c now timeout g).take k).map (·.serverId) ++
          roundRobinIds (whiteOf c now timeout g) (rangeServerIdx + UInt64.ofNat n) 0 n,
        rangeServerIdx + UInt64.ofNat n) := by
  intro k n
  have hk : min k (grayOf c now timeout g).length = k := by omega
  have hrr : (roundRobin (whiteOf c now timeout g) (rangeServerIdx + UInt64.ofNat n) 0 n :
      Outcome ChooseError (List Int)) = .ok (roundRobinIds (whiteOf c now timeout g) (rangeServerIdx + UInt64.ofNat n) 0 n) := by
    rcases Nat.eq_zero_or_pos (whiteOf c now timeout g).length with hw | hw
    · -- no white server: the gray servers make up the whole count
      have hn : n = 0 := by omega
      rw [hn]
      rfl
    · exact roundRobin_eq hw (length_filter_lt c _) _ 0 n
  unfold chooseRangeServers
  rw [if_neg (by omega), activeRangeServers_cache]
  simp only
  rw [if_neg (by omega), chooseGray_eq, hk]
  change (roundRobin _ _ 0 n >>= fun ids => Outcome.ok
    (((grayOf c now timeout g).take k).map (·.serverId) ++ ids, rangeServerIdx + UInt64.ofNat n)) = _
  rw [hrr, Outcome.ok_bind]

end Choose

theorem mem_whiteOf {c : Cache} {now timeout : Int} {g : List Int} {rs : RangeServer} :
    rs ∈ whiteOf c now timeout g ↔ rs ∈ c.rangeServers ∧ rs.available now timeout ∧ rs.serverId ∉ g := by
  simp [whiteOf]

theorem mem_grayOf {c : Cache} {now timeout : Int} {g : List Int} {rs : RangeServer} :
    rs ∈ grayOf c now timeout g ↔ rs ∈ c.rangeServers ∧ rs.available now timeout ∧ rs.serverId ∈ g := by
  simp [grayOf]

/-- Before the add wraps, the counter after the call is at least the number
of round-robin picks. -/
theorem le_toNat_add_ofNat {r : UInt64} {n : Nat} (hn : n < 2 ^ 64) (hwrap : r.toNat ≤ (r + UInt64.ofNat n).toNat) :
    n ≤ (r + UInt64.ofNat n).toNat := by
  have hr := r.toNat_lt
  rw [UInt64.toNat_add, toNat_ofNat_of_lt hn] at hwrap ⊢
  omega

/-- `chooseRangeServers` never panics and fails exactly when fewer servers are
available than asked for. Otherwise it returns `cnt` available servers, of
which `max 0 (cnt - len(white))` are gray, and, as long as the atomic add has
not wrapped the counter (the counter after the call is not below the one
before), no server twice. -/
theorem chooseRangeServers_distinct_available (c : Cache) (now timeout : Int) (rangeServerIdx : UInt64)
    (cnt : Int) (grayServerIds : List Int) (hcnt : 0 < cnt) :
    let available := c.rangeServers.filter (·.available now timeout)
    chooseRangeServers c now timeout rangeServerIdx cnt grayServerIds ≠ .panic ∧
      ((∃ e, chooseRangeServers c now timeout rangeServerIdx cnt grayServerIds = .error e) ↔
        (available.length : Int) < cnt) ∧
      ∀ ids idx, chooseRangeServers c now timeout rangeServerIdx cnt grayServerIds = .ok (ids, idx) →
        (ids.length : Int) = cnt ∧
        (∀ id ∈ ids, id ∈ available.map (·.serverId)) ∧
        ((ids.filter fun id => decide (id ∈ grayServerIds)).length : Int) =
          max 0 (cnt - (whiteOf c now timeout grayServerIds).length) ∧
        (rangeServerIdx.toNat ≤ idx.toNat → ids.Nodup) := by
  intro available
  have hsplit : (whiteOf c now timeout grayServerIds).length + (grayOf c now timeout grayServerIds).length =
      available.length := length_filter_split _ _ _
  by_cases hmore : ((whiteOf c now timeout grayServerIds).length +
      (grayOf c now timeout grayServerIds).length : Int) < cnt
  · rw [chooseRangeServers_of_lt rangeServerIdx hcnt hmore]
    refine ⟨(fun h => nomatch h), ⟨(fun _ => by omega), fun _ => ⟨_, rfl⟩⟩, fun ids idx h => ?_⟩
    cases h
  · rw [chooseRangeServers_of_le rangeServerIdx hcnt (by omega)]
    refine ⟨(fun h => nomatch h), ⟨(fun ⟨_, h⟩ => nomatch h), (fun _ => by omega)⟩, fun ids idx h => ?_⟩
    obtain ⟨rfl, rfl⟩ := Prod.mk.inj (Outcome.ok.inj h)
    set white := whiteOf c now timeout grayServerIds with hwhite
    set gray := grayOf c now timeout grayServerIds with hgray
    set k := (cnt - white.length).toNat with hk
    set n := (cnt - k).toNat with hn
    have hkg : k ≤ gray.length := by omega
    have hnw : n ≤ white.length := by omega
    -- what the round robin can return: nothing without white servers, white servers otherwise
    have hrr : ∀ id ∈ roundRobinIds white (rangeServerIdx + UInt64.ofNat n) 0 n,
        id ∈ white.map (·.serverId) := by
      intro id hid
      rcases Nat.eq_zero_or_pos white.length with hw | hw
      · have : n = 0 := by omega
        simp [roundRobinIds, this] at hid
      · exact mem_roundRobinIds hw (length_filter_lt c _) hid
    have hgrayIds : ∀ id ∈ (gray.take k).map (·.serverId), id ∈ gray.map (·.serverId) := fun id hid =>
      ((List.take_sublist k gray).map _).subset hid
    refine ⟨?_, fun id hid => ?_, ?_, fun hwrap => ?_⟩
    · simp only [List.length_append, List.length_map, List.length_take, roundRobinIds, List.length_range']
      omega
    · obtain ⟨rs, hrs, rfl⟩ : ∃ rs ∈ white ++ gray, rs.serverId = id := by
        rcases List.mem_append.mp hid with h | h
        · obtain ⟨rs, hrs, rfl⟩ := List.mem_map.mp (hgrayIds id h)
          exact ⟨rs, List.mem_append_right _ hrs, rfl⟩
        · obtain ⟨rs, hrs, rfl⟩ := List.mem_map.mp (hrr id h)
          exact ⟨rs, List.mem_append_left _ hrs, rfl⟩
      refine List.mem_map_of_mem (List.mem_filter.mpr ?_)
      rcases List.mem_append.mp hrs with h | h
      · exact ⟨(mem_whiteOf.mp h).1, (mem_whiteOf.mp h).2.1⟩
      · exact ⟨(mem_grayOf.mp h).1, (mem_grayOf.mp h).2.1⟩
    · -- the gray picks are all in the gray set, the round-robin picks none
      have hkeep : ((gray.take k).map (·.serverId)).filter (fun id => decide (id ∈ grayServerIds)) =
          (gray.take k).map (·.serverId) := by
        refine List.filter_eq_self.mpr fun id hid => ?_
        obtain ⟨rs, hrs, rfl⟩ := List.mem_map.mp (hgrayIds id hid)
        simpa using (mem_grayOf.mp hrs).2.2
      have hdrop : (roundRobinIds white (rangeServerIdx + UInt64.ofNat n) 0 n).filter
          (fun id => decide (id ∈ grayServerIds)) = [] := by
        refine List.filter_eq_nil_iff.mpr fun id hid => ?_
        obtain ⟨rs, hrs, rfl⟩ := List.mem_map.mp (hrr id hid)
        simpa using (mem_whiteOf.mp hrs).2.2
      rw [List.filter_append, hkeep, hdrop, List.append_nil, List.length_map, List.length_take]
      omega
    · refine List.nodup_append.mpr ⟨?_, ?_, fun a ha b hb hab => ?_⟩
      · exact (nodup_ids_filter c _).sublist ((List.take_sublist k gray).map _)
      · rcases Nat.eq_zero_or_pos white.length with hw | hw
        · have : n = 0 := by omega
          simp [roundRobinIds, this]
        · exact roundRobinIds_nodup (nodup_ids_filter c _) hw (length_filter_lt c _) hnw
            (le_toNat_add_ofNat (by have : white.length < 2 ^ 64 := length_filter_lt c _; omega) hwrap)
      · obtain ⟨rs, hrs, rfl⟩ := List.mem_map.mp (hgrayIds a ha)
        obtain ⟨rs', hrs', hrs'id⟩ := List.mem_map.mp (hrr b hb)
        exact (mem_whiteOf.mp hrs').2.2 (hrs'id ▸ hab ▸ (mem_grayOf.mp hrs).2.2)

/-- Three servers seen 2 s ago, the first of them the previous range's. -/
def threeServers : Cache :=
  ⟨[⟨1, .readWrite, some 8, none⟩, ⟨2, .readWrite, some 8, none⟩, ⟨3, .readWrite, some 8, none⟩],
    by decide, by decide⟩

theorem chooseRangeServers_three_servers :
    chooseRangeServers threeServers 10 5 0 3 [1] = .ok ([1, 2, 3], 2) ∧ [(1 : Int), 2, 3].Nodup := by
  have heval : chooseRangeServers threeServers 10 5 0 3 [1] = .ok ([1, 2, 3], 2) := by decide
  obtain ⟨-, -, hok⟩ := chooseRangeServers_distinct_available threeServers 10 5 0 3 [1] (by decide)
  exact ⟨heval, (hok _ _ heval).2.2.2 (by decide)⟩

end ElasticStream.Placement
