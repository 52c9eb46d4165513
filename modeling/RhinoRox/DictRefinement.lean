import RhinoRox.DictInvariant

/-!
# The dictionary refines a finite map from byte strings to values

The abstract behaviour is that of `Finmap`. Every history of calls from `dict_create`
returns what the map returns, and the stored map is the abstract one.
-/

namespace RhinoRox

variable {α : Type}

inductive DictOp (α : Type) where
  | set (k : CString) (v : α)
  | del (k : CString)
  | get (k : CString)
  | contains (k : CString)
  | clear
  | length
  | empty

inductive DictResult (α : Type) where
  | stored (b : Bool)
  | value (v : Option α)
  | flag (b : Bool)
  | count (n : ℕ)
  | done
  deriving DecidableEq, Repr

/-- One call on the dictionary. -/
def DictOp.run (d : DictT α) : DictOp α → Exec (DictResult α × DictT α)
  | .set k v => do
    let (b, d', _) ← dictSet d k.1 (some v)
    pure (.stored b, d')
  | .del k => do
    let (v, d') ← dictDel d k.1
    pure (.value v, d')
  | .get k => do
    let v ← dictGet d k.1
    pure (.value v, d)
  | .contains k => do
    let b ← dictContains d k.1
    pure (.flag b, d)
  | .clear => do
    let (d', _) ← dictClear d
    pure (.done, d')
  | .length => pure (.count (dictLength d), d)
  | .empty => pure (.flag (dictEmpty d), d)

/-- The same call on a finite map. -/
def DictOp.onMap (m : Finmap (fun _ : Bytes => α)) :
    DictOp α → DictResult α × Finmap (fun _ : Bytes => α)
  | .set k v => (.stored true, m.insert k.1 v)
  | .del k => (.value (m.lookup k.1), m.erase k.1)
  | .get k => (.value (m.lookup k.1), m)
  | .contains k => (.flag (m.lookup k.1).isSome, m)
  | .clear => (.done, ∅)
  | .length => (.count m.keys.card, m)
  | .empty => (.flag (m.keys.card == 0), m)

def runDict (d : DictT α) : List (DictOp α) → Exec (List (DictResult α) × DictT α)
  | [] => pure ([], d)
  | op :: ops => do
    let (r, d') ← op.run d
    let (rs, d'') ← runDict d' ops
    pure (r :: rs, d'')

def runMap (m : Finmap (fun _ : Bytes => α)) :
    List (DictOp α) → List (DictResult α) × Finmap (fun _ : Bytes => α)
  | [] => ([], m)
  | op :: ops => ((op.onMap m).1 :: (runMap (op.onMap m).2 ops).1, (runMap (op.onMap m).2 ops).2)

/-- One call keeps the invariant and commutes with the map it stores. -/
theorem DictOp.run_spec {d : DictT α} (h : d.Inv) (op : DictOp α) :
    ∃ d', op.run d = .ok ((op.onMap d.toMap).1, d') ∧ d'.Inv ∧ d'.toMap = (op.onMap d.toMap).2 := by
  cases op with
  | set k v =>
    obtain ⟨d', freed, hr, hi, hm, -, -⟩ := dictSet_spec h k.1 v
    rw [cStr_coe] at hm
    exact ⟨d', by simp [DictOp.run, hr, DictOp.onMap], hi, hm⟩
  | del k =>
    obtain ⟨d', hr, hi, hm, -, -⟩ := dictDel_spec h k.1
    rw [cStr_coe] at hr hm
    exact ⟨d', by simp [DictOp.run, hr, DictOp.onMap], hi, hm⟩
  | get k =>
    have hr := dictGet_spec h k.1
    rw [cStr_coe] at hr
    exact ⟨d, by simp [DictOp.run, hr, DictOp.onMap], h, rfl⟩
  | contains k =>
    have hr := dictContains_spec h k.1
    rw [cStr_coe] at hr
    exact ⟨d, by simp [DictOp.run, hr, DictOp.onMap], h, rfl⟩
  | clear =>
    obtain ⟨d', hr, hi, hm, -⟩ := dictClear_spec h
    exact ⟨d', by simp [DictOp.run, hr, DictOp.onMap], hi, hm⟩
  | length => exact ⟨d, by simp [DictOp.run, dictLength, DictOp.onMap, h.card_keys], h, rfl⟩
  | empty => exact ⟨d, by simp [DictOp.run, dictEmpty, DictOp.onMap, h.card_keys], h, rfl⟩

theorem runDict_spec {d : DictT α} (h : d.Inv) (ops : List (DictOp α)) :
    ∃ d', runDict d ops = .ok ((runMap d.toMap ops).1, d') ∧ d'.Inv ∧
      d'.toMap = (runMap d.toMap ops).2 := by
  induction ops generalizing d with
  | nil => exact ⟨d, rfl, h, rfl⟩
  | cons op ops ih =>
    obtain ⟨d₁, hr, hi, hm⟩ := op.run_spec h
    obtain ⟨d₂, hr₂, hi₂, hm₂⟩ := ih hi
    refine ⟨d₂, ?_, hi₂, ?_⟩
    · simp [runDict, hr, hr₂, hm, runMap]
    · rw [hm₂, hm, runMap]

/-- Every history of calls on a fresh dictionary returns the results of a finite map. -/
theorem dict_refines_finmap (ops : List (DictOp α)) :
    ∃ d, runDict dictCreate ops = .ok ((runMap ∅ ops).1, d) ∧ d.toMap = (runMap ∅ ops).2 := by
  obtain ⟨d, hr, -, hm⟩ := runDict_spec dictCreate_inv ops
  exact ⟨d, hr, hm⟩

/-- The dictionaries that `dict_set`, `dict_del` and `dict_clear` can produce. -/
inductive DictReachable : DictT α → Prop where
  | create : DictReachable dictCreate
  | freecb {d : DictT α} (h : DictReachable d) : DictReachable (dictSetFreecb d)
  | set {d d' : DictT α} {b : Bool} {freed : List α} (h : DictReachable d) (k : Bytes) (v : Option α)
      (run : dictSet d k v = .ok (b, d', freed)) : DictReachable d'
  | del {d d' : DictT α} {v : Option α} (h : DictReachable d) (k : Bytes)
      (run : dictDel d k = .ok (v, d')) : DictReachable d'
  | clear {d d' : DictT α} {freed : List α} (h : DictReachable d)
      (run : dictClear d = .ok (d', freed)) : DictReachable d'

theorem DictReachable.inv {d : DictT α} (h : DictReachable d) : d.Inv := by
  induction h with
  | create => exact dictCreate_inv
  | freecb _ ih => exact dictSetFreecb_inv ih
  | set _ k v run ih =>
    cases v with
    | none =>
      obtain ⟨-, rfl, -⟩ : _ ∧ _ ∧ _ := by simpa [dictSet] using run
      exact ih
    | some v =>
      obtain ⟨d₁, freed, hr, hi, -⟩ := dictSet_spec ih k v
      rw [hr] at run
      obtain ⟨-, rfl, -⟩ : _ ∧ _ ∧ _ := by simpa using run
      exact hi
  | del _ k run ih =>
    obtain ⟨d₁, hr, hi, -⟩ := dictDel_spec ih k
    rw [hr] at run
    obtain ⟨-, rfl⟩ : _ ∧ _ := by simpa using run
    exact hi
  | clear _ run ih =>
    obtain ⟨d₁, hr, hi, -⟩ := dictClear_spec ih
    rw [hr] at run
    obtain ⟨rfl, -⟩ : _ ∧ _ := by simpa using run
    exact hi

end RhinoRox
