import ElasticStream.Collections.SortedMap

/-! # Optimistic transactions on an ordered key-value store

A transaction body reads keys one after another, queues writes, and ends with
a result. Run optimistically, each read sees the store as it is at that
moment and records what it saw; the commit applies the queued writes only if
every key still holds what was read. Such a commit has the effect of running
the whole body at once on the store at the commit (`Runs.commit_atomic`):
every decision the body took on its reads is a decision on the store it writes
to. -/

namespace ElasticStream.Kv
open ElasticStream.Collections

variable {κ ν α : Type} [LinearOrder κ]

/-- A queued write: put a value, or delete the keys that `sel` selects. -/
inductive Op (κ ν : Type) where
  | put (k : κ) (v : ν)
  | delete (sel : κ → Bool)

namespace Op

def apply (m : SortedMap κ ν) : Op κ ν → SortedMap κ ν
  | .put k v => m.insert k v
  | .delete sel => m.filter fun e => !sel e.1

/-- The lookup of one key after a write. -/
theorem find?_apply (m : SortedMap κ ν) (op : Op κ ν) (k : κ) :
    (op.apply m).find? k = match op with
      | .put k' v => if k = k' then some v else m.find? k
      | .delete sel => if sel k then none else m.find? k := by
  cases op with
  | put k' v =>
    simp only [apply]
    split_ifs with h
    · subst h; exact SortedMap.find?_insert_self m k v
    · exact SortedMap.find?_insert_of_ne m v h
  | delete sel =>
    simp only [apply]
    rw [SortedMap.find?_filter_key m (fun k => !sel k) k]
    cases sel k <;> rfl

/-- The write leaves key `k` alone. -/
def Untouched (k : κ) : Op κ ν → Prop
  | .put k' _ => k ≠ k'
  | .delete sel => sel k = false

@[simp] theorem untouched_put {k k' : κ} {v : ν} : (Op.put k' v).Untouched k ↔ k ≠ k' := Iff.rfl

@[simp] theorem untouched_delete {k : κ} {sel : κ → Bool} :
    (Op.delete sel : Op κ ν).Untouched k ↔ sel k = false := Iff.rfl

end Op

/-- The writes applied in order. -/
def applyAll (m : SortedMap κ ν) (ops : List (Op κ ν)) : SortedMap κ ν := ops.foldl Op.apply m

@[simp] theorem applyAll_nil (m : SortedMap κ ν) : applyAll m [] = m := rfl

@[simp] theorem applyAll_cons (m : SortedMap κ ν) (op : Op κ ν) (ops : List (Op κ ν)) :
    applyAll m (op :: ops) = applyAll (op.apply m) ops := rfl

/-- A key that no write touches keeps its value. -/
theorem find?_applyAll_of_untouched {m : SortedMap κ ν} {ops : List (Op κ ν)} {k : κ}
    (h : ∀ op ∈ ops, op.Untouched k) :
    (applyAll m ops).find? k = m.find? k := by
  induction ops generalizing m with
  | nil => rfl
  | cons op ops ih =>
    rw [applyAll_cons, ih (fun op' hop' => h op' (List.mem_cons_of_mem _ hop')), Op.find?_apply]
    have hop := h op List.mem_cons_self
    cases op with
    | put k' v => exact if_neg hop
    | delete sel =>
      show (if sel k = true then none else m.find? k) = m.find? k
      rw [Op.untouched_delete.mp hop]
      rfl

/-- A transaction body. -/
inductive Body (κ ν α : Type) where
  | get (k : κ) (cont : Option ν → Body κ ν α)
  | write (op : Op κ ν) (next : Body κ ν α)
  | ret (a : α)

/-- The body run at once on one store: the writes it queues and its result. -/
def Body.atomic (m : SortedMap κ ν) : Body κ ν α → List (Op κ ν) × α
  | .get k cont => (cont (m.find? k)).atomic m
  | .write op next => (op :: (next.atomic m).1, (next.atomic m).2)
  | .ret a => ([], a)

@[simp] theorem atomic_get (m : SortedMap κ ν) (k : κ) (cont : Option ν → Body κ ν α) :
    (Body.get k cont).atomic m = (cont (m.find? k)).atomic m := rfl

@[simp] theorem atomic_write (m : SortedMap κ ν) (op : Op κ ν) (next : Body κ ν α) :
    (Body.write op next).atomic m = (op :: (next.atomic m).1, (next.atomic m).2) := rfl

@[simp] theorem atomic_ret (m : SortedMap κ ν) (a : α) : (Body.ret a : Body κ ν α).atomic m = ([], a) := rfl

/-- A transaction in flight: the reads with what they saw, the queued writes,
and the rest of the body. -/
structure Txn (κ ν α : Type) where
  reads : List (κ × Option ν)
  ops : List (Op κ ν)
  body : Body κ ν α

namespace Txn

def begin (b : Body κ ν α) : Txn κ ν α := ⟨[], [], b⟩

/-- The next step of the body: a read of the store as it is now, or a write queued. -/
def advance (m : SortedMap κ ν) (t : Txn κ ν α) : Txn κ ν α :=
  match t.body with
  | .get k cont => { t with reads := t.reads ++ [(k, m.find? k)], body := cont (m.find? k) }
  | .write op next => { t with ops := t.ops ++ [op], body := next }
  | .ret _ => t

/-- The compares of the commit: every key read still holds what was read. -/
def valid [DecidableEq ν] (m : SortedMap κ ν) (t : Txn κ ν α) : Bool :=
  t.reads.all fun r => m.find? r.1 == r.2

theorem valid_iff [DecidableEq ν] {m : SortedMap κ ν} {t : Txn κ ν α} :
    t.valid m = true ↔ ∀ r ∈ t.reads, m.find? r.1 = r.2 := by
  simp [valid]

end Txn

/-- `t` is what the body `b` has become after some steps, each against the
store of its moment. -/
inductive Runs (b : Body κ ν α) : Txn κ ν α → Prop
  | begin : Runs b (Txn.begin b)
  | advance {t : Txn κ ν α} (m : SortedMap κ ν) : Runs b t → Runs b (t.advance m)

/-- On a store where every read of `t` still holds, running `b` at once does
what `t` did so far and then what the rest of it does. -/
theorem Runs.atomic {b : Body κ ν α} {t : Txn κ ν α} {m : SortedMap κ ν} (h : Runs b t)
    (hv : ∀ r ∈ t.reads, m.find? r.1 = r.2) :
    b.atomic m = (t.ops ++ (t.body.atomic m).1, (t.body.atomic m).2) := by
  induction h with
  | begin => rfl
  | @advance t m' _ ih =>
    -- the induction is on the steps; each case follows the next construct of the body
    cases hb : t.body with
    | get k cont =>
      simp only [Txn.advance, hb, List.mem_append, List.mem_singleton] at hv ⊢
      have hk : m.find? k = m'.find? k := hv (k, m'.find? k) (.inr rfl)
      rw [ih fun r hr => hv r (.inl hr), hb, atomic_get, hk]
    | write op next =>
      simp only [Txn.advance, hb] at hv ⊢
      rw [ih hv, hb, atomic_write, List.append_assoc]
      rfl
    | ret a =>
      simp only [Txn.advance, hb] at hv ⊢
      exact hb ▸ ih hv

/-- **A commit acts as the body run at once on the store it commits to.** -/
theorem Runs.commit_atomic [DecidableEq ν] {b : Body κ ν α} {t : Txn κ ν α} {m : SortedMap κ ν} {a : α}
    (h : Runs b t) (hret : t.body = .ret a) (hv : t.valid m = true) : b.atomic m = (t.ops, a) := by
  rw [h.atomic (Txn.valid_iff.mp hv), hret, atomic_ret, List.append_nil]

end ElasticStream.Kv
