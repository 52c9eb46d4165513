import RhinoRox.AdlistLifetimes

/-!
# Iterators, searches and positions

An iterator stands between the nodes that were visited and those that remain. It visits every node
once, in order, while the body of the loop may do to the visited nodes whatever it likes: the node
at hand may be removed.
-/

namespace RhinoRox.Adlist

open LinkedSegments FiniteMaps

variable {α β : Type} {h h' : Heap α} {σ : Sequences α} {l a : ℕ} {s : Sequence α} {xs done rest : Nodes α} {v : α}

/-- The nodes in the order in which an iterator visits them. -/
def Direction.order : Direction → Nodes α → Nodes α
  | head, xs => xs
  | tail, xs => xs.reverse

theorem first_reverse (xs : Nodes α) (next : Option ℕ) : first xs.reverse next = last next xs := by
  induction xs generalizing next with
  | nil => rfl
  | cons x xs ih => rw [List.reverse_cons, first_append, ih, last_cons, first_cons]

theorem last_reverse (xs : Nodes α) (prev : Option ℕ) : last prev xs.reverse = first xs prev := by
  rw [← first_reverse, List.reverse_reverse]

namespace Heap.Represents

/-- The pointer that is followed from a node leads to the nodes that remain. -/
theorem follow (hr : h.Represents σ) (hl : σ.lookup l = some s) {dir : Direction}
    (hsplit : dir.order s.nodes = done ++ (a, v) :: rest) :
    ∃ n, h.node (some a) = .ok n ∧ n.value = v ∧ dir.follow n = first rest none := by
  have hs := hr.segment l s hl
  cases dir with
  | head =>
    change s.nodes = _ at hsplit
    rw [hsplit] at hs
    exact ⟨_, node_of_lookup hs.lookup, rfl, rfl⟩
  | tail =>
    have hnodes : s.nodes = rest.reverse ++ (a, v) :: done.reverse := by
      rw [← List.reverse_reverse s.nodes, show s.nodes.reverse = _ from hsplit]
      simp only [List.reverse_append, List.reverse_cons, List.append_assoc, List.singleton_append]
    rw [hnodes] at hs
    exact ⟨_, node_of_lookup hs.lookup, rfl, last_reverse rest none⟩

end Heap.Represents

theorem listGetIterator_spec (hr : h.Represents σ) (hl : σ.lookup l = some s) (dir : Direction) :
    listGetIterator h l dir = .ok ⟨first (dir.order s.nodes) none, dir⟩ := by
  simp only [listGetIterator, hr.list_eq hl, Exec.ok_bind, Exec.pure_eq]
  cases dir with
  | head => rfl
  | tail =>
    rw [Direction.order, first_reverse]
    rfl

/-! ## Loops -/

section Loops
variable {S : Type} {heap : S → Heap α} {body : ℕ → S → Exec (S ⊕ β)} {dir : Direction} {st : S}

theorem whileNext_none (fuel : ℕ) : whileNext heap body (fuel + 1) ⟨none, dir⟩ st = .ok (.inl st) := rfl

theorem whileNext_some {n : Node α} (hn : (heap st).node (some a) = .ok n) (fuel : ℕ) :
    whileNext heap body (fuel + 1) ⟨some a, dir⟩ st = body a st >>= fun
      | .inr b => pure (.inr b)
      | .inl st => whileNext heap body fuel ⟨dir.follow n, dir⟩ st := by
  simp only [whileNext, listNext, hn, Exec.ok_bind, Exec.pure_eq]
  cases body a st with
  | error e => rfl
  | ok r => cases r <;> rfl

/-- The body on one address after the other, until it stops. -/
def visit (body : ℕ → S → Exec (S ⊕ β)) : List ℕ → S → Exec (S ⊕ β)
  | [], st => pure (.inl st)
  | a :: as, st => do
    match ← body a st with
    | .inr b => pure (.inr b)
    | .inl st => visit body as st

/-- The body may change what was visited, the node at hand included, but not what remains. -/
def KeepsRest (heap : S → Heap α) (l : ℕ) (dir : Direction) (body : ℕ → S → Exec (S ⊕ β)) : Prop :=
  ∀ st σ s done a v rest st', (heap st).Represents σ → σ.lookup l = some s → dir.order s.nodes = done ++ (a, v) :: rest →
    body a st = .ok (.inl st') →
    ∃ σ' s' done', (heap st').Represents σ' ∧ σ'.lookup l = some s' ∧ dir.order s'.nodes = done' ++ rest

theorem whileNext_visits (hbody : KeepsRest heap l dir body) (hr : (heap st).Represents σ) (hl : σ.lookup l = some s)
    (hsplit : dir.order s.nodes = done ++ rest) {fuel : ℕ} (hfuel : rest.length < fuel) :
    whileNext heap body fuel ⟨first rest none, dir⟩ st = visit body (addrs rest) st := by
  induction rest generalizing st σ s done fuel with
  | nil =>
    obtain ⟨fuel, rfl⟩ := Nat.exists_eq_add_of_lt hfuel
    rw [List.length_nil, Nat.zero_add, first_nil, whileNext_none]
    rfl
  | cons x rest ih =>
    obtain ⟨fuel, rfl⟩ : ∃ k, fuel = k + 1 := Nat.exists_eq_add_one.mpr (by omega)
    obtain ⟨n, hn, -, hfollow⟩ := hr.follow hl hsplit
    rw [first_cons, whileNext_some hn, addrs_cons, visit, hfollow]
    cases hrun : body x.1 st with
    | error e => rfl
    | ok r =>
      cases r with
      | inr b => rfl
      | inl st' =>
        obtain ⟨σ', s', done', hr', hl', hsplit'⟩ := hbody _ _ _ _ _ _ _ _ hr hl hsplit hrun
        exact ih hr' hl' hsplit' (Nat.lt_of_succ_lt_succ hfuel)

/-- An iterator visits the nodes that the list had when it was made, each once and in order. -/
theorem iteration_visits (hbody : KeepsRest heap l dir body) (hr : (heap st).Represents σ) (hl : σ.lookup l = some s)
    {fuel : ℕ} (hfuel : s.nodes.length < fuel) :
    (listGetIterator (heap st) l dir >>= fun iter => whileNext heap body fuel iter st) =
      visit body (addrs (dir.order s.nodes)) st := by
  have hsplit : dir.order s.nodes = [] ++ dir.order s.nodes := rfl
  have hlength : (dir.order s.nodes).length < fuel := by
    cases dir with
    | head => exact hfuel
    | tail =>
      rw [Direction.order, List.length_reverse]
      exact hfuel
  rw [listGetIterator_spec hr hl, Exec.ok_bind]
  exact whileNext_visits hbody hr hl hsplit hlength

end Loops

theorem Heap.Represents.length_lt_fuel (hr : h.Represents σ) (hl : σ.lookup l = some s) : s.nodes.length < h.fuel := by
  have hsub : (addrs s.nodes).toFinset ⊆ h.nodes.keys := by
    intro b hb
    exact Finmap.mem_keys.mpr (hr.mem_nodes hl (List.mem_toFinset.mp hb))
  have hcard := Finset.card_le_card hsub
  rw [List.toFinset_card_of_nodup (hr.nodup l s hl), addrs, List.length_map] at hcard
  exact Nat.lt_succ_of_le hcard

/-! ## Searches and positions -/

section Search
variable [DecidableEq α]

theorem searchBody_keeps (methods : Methods α) (key : α) (l : ℕ) : KeepsRest id l .head (searchBody methods key) := by
  intro h σ s done a v rest h' hr hl hsplit hrun
  obtain ⟨n, hn, -⟩ := Heap.Represents.follow (h := h) hr hl hsplit
  simp only [searchBody, hn, Exec.ok_bind, Exec.pure_eq] at hrun
  split at hrun
  · cases hrun
  · obtain rfl := Sum.inl.inj (Except.ok.inj hrun)
    refine ⟨σ, s, done ++ [(a, v)], hr, hl, ?_⟩
    rw [hsplit, List.append_assoc, List.singleton_append]

theorem visit_searchBody (hr : h.Represents σ) (hl : σ.lookup l = some s) (methods : Methods α) (key : α)
    (hsplit : s.nodes = done ++ rest) :
    visit (searchBody methods key) (addrs rest) h =
      .ok (((rest.find? fun x => methods.matches x.2 key).map Prod.fst).elim (.inl h) .inr) := by
  induction rest generalizing done with
  | nil => rfl
  | cons x rest ih =>
    have hdir : Direction.head.order s.nodes = done ++ (x.1, x.2) :: rest := hsplit
    obtain ⟨n, hn, hvalue, -⟩ := hr.follow hl hdir
    rw [addrs_cons, visit, searchBody, hn, Exec.ok_bind, hvalue, List.find?_cons]
    cases methods.matches x.2 key with
    | true => rfl
    | false =>
      have hnext : s.nodes = (done ++ [x]) ++ rest := by
        rw [hsplit, List.append_assoc, List.singleton_append]
      exact ih hnext

theorem listSearchKey_spec (hr : h.Represents σ) (hl : σ.lookup l = some s) (key : α) :
    listSearchKey h l key = .ok ((s.nodes.find? fun x => s.methods.matches x.2 key).map Prod.fst) := by
  have hnil : s.nodes = [] ++ s.nodes := rfl
  have hheap : (id h).Represents σ := hr
  have hloop := iteration_visits (searchBody_keeps s.methods key l) hheap hl (hr.length_lt_fuel hl)
  rw [show Direction.head.order s.nodes = s.nodes from rfl, visit_searchBody hr hl s.methods key hnil,
    listGetIterator_spec hheap hl, Exec.ok_bind] at hloop
  simp only [listSearchKey, hr.list_eq hl, listGetIterator_spec hr hl, Exec.ok_bind]
  change (whileNext id (searchBody s.methods key) h.fuel _ h >>= _) = _
  rw [hloop, Exec.ok_bind]
  cases s.nodes.find? fun x => s.methods.matches x.2 key <;> rfl

end Search

theorem walk_spec (hr : h.Represents σ) (hl : σ.lookup l = some s) {dir : Direction} (k : ℕ)
    (hsplit : dir.order s.nodes = done ++ rest) : walk h dir k (first rest none) = .ok (rest[k]?.map Prod.fst) := by
  induction k generalizing done rest with
  | zero =>
    cases rest with
    | nil => rfl
    | cons x rest => rfl
  | succ k ih =>
    cases rest with
    | nil => rfl
    | cons x rest =>
      obtain ⟨n, hn, -, hfollow⟩ := hr.follow hl hsplit
      rw [first_cons, walk, hn, Exec.ok_bind, hfollow, List.getElem?_cons_succ]
      have hnext : dir.order s.nodes = (done ++ [x]) ++ rest := by
        rw [hsplit, List.append_assoc, List.singleton_append]
      exact ih hnext

/-- The address at an index, from the end if it is negative. -/
def nodeAt (xs : Nodes α) (index : ℤ) : Option ℕ :=
  if index < 0 then xs.reverse[(-index - 1).toNat]?.map Prod.fst else xs[index.toNat]?.map Prod.fst

theorem listIndex_spec (hr : h.Represents σ) (hl : σ.lookup l = some s) {index : ℤ} (hmin : -2 ^ 63 < index) :
    listIndex h l index = .ok (nodeAt s.nodes index) := by
  simp only [listIndex, hr.list_eq hl, Exec.ok_bind, nodeAt]
  split
  · have hneg : toInt64 (-index) = -index := toInt64_of_lt (by omega) (by omega)
    have hsub : toInt64 (-index - 1) = -index - 1 := toInt64_of_lt (by omega) (by omega)
    rw [hneg, hsub]
    have hsplit : Direction.tail.order s.nodes = [] ++ s.nodes.reverse := rfl
    have hwalk := walk_spec hr hl (-index - 1).toNat hsplit
    rw [first_reverse] at hwalk
    exact hwalk
  · have hsplit : Direction.head.order s.nodes = [] ++ s.nodes := rfl
    exact walk_spec hr hl index.toNat hsplit

/-! ## Copies -/

/-- The copied values up to the first one that cannot be copied, and whether there is none. -/
def Methods.copied (methods : Methods α) : List α → List α × Bool
  | [] => ([], true)
  | v :: vs => match methods.copy v with
    | none => ([], false)
    | some w => (w :: (methods.copied vs).1, (methods.copied vs).2)

/-- The outcomes of copying values to the end of a list: there is no memory, all are copied, or one
cannot be copied and the list is released. -/
inductive Copies (h : Heap α) (σ : Sequences α) (copy : ℕ) (c : Sequence α) (vs : List α) :
    Exec (Heap α ⊕ Heap α) → Prop where
  | outOfMemory : Copies h σ copy c vs (.error .exit)
  | complete {h' : Heap α} (ys : Nodes α) (hall : (c.methods.copied vs).2 = true)
      (hvalues : ys.map Prod.snd = (c.methods.copied vs).1) (hfreed : h'.freed = h.freed)
      (hr : h'.Represents (σ.insert copy { c with nodes := c.nodes ++ ys })) : Copies h σ copy c vs (.ok (.inl h'))
  | failed {h' : Heap α} (hsome : (c.methods.copied vs).2 = false)
      (hfreed : h'.freed = h.freed ++ c.methods.frees (c.nodes.map Prod.snd ++ (c.methods.copied vs).1))
      (hr : h'.Represents (σ.erase copy)) : Copies h σ copy c vs (.ok (.inr h'))

section Copying
variable {m : Allocator} {copy orig : ℕ} {c : Sequence α}

/-- One more value was copied before. -/
theorem Copies.cons {h₁ : Heap α} {w : α} {vs : List α} {run : Exec (Heap α ⊕ Heap α)}
    (h' : Copies h₁ (σ.insert copy { c with nodes := c.nodes ++ [(a, w)] }) copy { c with nodes := c.nodes ++ [(a, w)] } vs run)
    (hw : c.methods.copy v = some w) (hfreed : h₁.freed = h.freed) : Copies h σ copy c (v :: vs) run := by
  have hcopied : c.methods.copied (v :: vs) = (w :: (c.methods.copied vs).1, (c.methods.copied vs).2) := by
    rw [Methods.copied, hw]
  cases h' with
  | outOfMemory => exact .outOfMemory
  | complete ys hall hvalues hf hr =>
    rw [Finmap.insert_insert, List.append_assoc] at hr
    refine .complete ((a, w) :: ys) ?_ ?_ (hf.trans hfreed) hr
    · rw [hcopied]
      exact hall
    · rw [hcopied, List.map_cons, hvalues]
  | failed hsome hf hr =>
    have herase : (σ.insert copy { c with nodes := c.nodes ++ [(a, w)] }).erase copy = σ.erase copy := by
      apply Finmap.ext_lookup
      intro k
      by_cases hk : k = copy
      · rw [hk, Finmap.lookup_erase, Finmap.lookup_erase]
      · rw [Finmap.lookup_erase_ne hk, Finmap.lookup_erase_ne hk, Finmap.lookup_insert_of_ne _ hk]
    rw [herase] at hr
    refine .failed ?_ ?_ hr
    · rw [hcopied]
      exact hsome
    · rw [hcopied, hf, hfreed, List.map_append, List.append_assoc]
      rfl

theorem dupLoop_copies (hr : h.Represents σ) (hl : σ.lookup orig = some s) (hc : σ.lookup copy = some c)
    (hne : orig ≠ copy) (hsplit : s.nodes = done ++ rest) {fuel : ℕ} (hfuel : rest.length < fuel) :
    Copies h σ copy c (rest.map Prod.snd) (whileNext id (dupBody m c.methods copy) fuel ⟨first rest none, .head⟩ h) := by
  induction rest generalizing h σ c done fuel with
  | nil =>
    obtain ⟨fuel, rfl⟩ : ∃ k, fuel = k + 1 := Nat.exists_eq_add_one.mpr (by omega)
    have hσ : σ.insert copy { c with nodes := c.nodes ++ [] } = σ := by
      have hput := put_lookup σ copy
      rw [hc] at hput
      rw [List.append_nil]
      exact hput
    have hr' : h.Represents (σ.insert copy { c with nodes := c.nodes ++ [] }) := by
      rw [hσ]
      exact hr
    exact .complete [] rfl rfl rfl hr'
  | cons x rest ih =>
    obtain ⟨fuel, rfl⟩ : ∃ k, fuel = k + 1 := Nat.exists_eq_add_one.mpr (by omega)
    have hdir : Direction.head.order s.nodes = done ++ (x.1, x.2) :: rest := hsplit
    obtain ⟨n, hn, hvalue, hfollow⟩ := hr.follow hl hdir
    have hnext : s.nodes = (done ++ [x]) ++ rest := by
      rw [hsplit, List.append_assoc, List.singleton_append]
    have hheap : (id h).node (some x.1) = .ok n := hn
    rw [first_cons, whileNext_some hheap, hfollow, dupBody, hn, Exec.ok_bind, hvalue, List.map_cons]
    cases hw : c.methods.copy x.2 with
    | none =>
      obtain ⟨h₁, hrun, hfreed, hr₁⟩ := listRelease_spec hr hc
      have hcopied : c.methods.copied (x.2 :: rest.map Prod.snd) = ([], false) := by rw [Methods.copied, hw]
      simp only [hrun, Exec.ok_bind, Exec.pure_eq]
      refine .failed ?_ ?_ hr₁
      · rw [hcopied]
      · rw [hcopied, hfreed, List.append_nil]
    | some w =>
      rcases zmalloc_cases m h with hexit | ⟨b, ha⟩
      · have hrun : listAddNodeTail m h copy w = .error .exit := by rw [listAddNodeTail, hexit, Exec.error_bind]
        simp only [hrun, Exec.error_bind]
        exact .outOfMemory
      · obtain ⟨h₁, hrun, hfreed, hr₁⟩ := listAddNodeTail_spec hr hc ha w
        simp only [hrun, Exec.ok_bind, Exec.pure_eq]
        have hl₁ := (Finmap.lookup_insert_of_ne (b := { c with nodes := c.nodes ++ [(b, w)] }) σ hne).trans hl
        exact (ih hr₁ hl₁ (Finmap.lookup_insert _) hnext (Nat.lt_of_succ_lt_succ hfuel)).cons hw hfreed

theorem listDup_spec (m : Allocator) (hr : h.Represents σ) (hl : σ.lookup orig = some s) :
    listDup m h orig = .error .exit ∨
      ((s.methods.copied (s.nodes.map Prod.snd)).2 = true ∧ ∃ h' copy ys, listDup m h orig = .ok (h', some copy) ∧
        σ.lookup copy = none ∧ ys.map Prod.snd = (s.methods.copied (s.nodes.map Prod.snd)).1 ∧ h'.freed = h.freed ∧
        h'.Represents (σ.insert copy ⟨ys, s.methods⟩)) ∨
      ((s.methods.copied (s.nodes.map Prod.snd)).2 = false ∧ ∃ h', listDup m h orig = .ok (h', none) ∧
        h'.freed = h.freed ++ s.methods.frees (s.methods.copied (s.nodes.map Prod.snd)).1 ∧ h'.Represents σ) := by
  rcases zmalloc_cases m h with hexit | ⟨copy, ha⟩
  · exact .inl (by rw [listDup, listCreate, hexit, Exec.error_bind, Exec.error_bind])
  obtain ⟨h₁, hr₁, hfreed₁, hnodes₁, hnone, hrep₁⟩ := listCreate_spec hr ha
  have hne : orig ≠ copy := by
    rintro rfl
    rw [hl] at hnone
    cases hnone
  have hl₁ := (Finmap.lookup_insert_of_ne (b := ⟨[], .unset⟩) σ hne).trans hl
  obtain ⟨h₂, hr₂, hfreed₂, hnodes₂, hrep₂⟩ := listSetMethods_spec hrep₁ (Finmap.lookup_insert _) s.methods
  rw [Finmap.insert_insert] at hrep₂
  have hl₂ := (Finmap.lookup_insert_of_ne (b := ⟨[], s.methods⟩) σ hne).trans hl
  have hsplit : s.nodes = [] ++ s.nodes := rfl
  have hloop := dupLoop_copies (m := m) hrep₂ hl₂ (Finmap.lookup_insert _) hne hsplit (hrep₂.length_lt_fuel hl₂)
  have hmethods : s.record.toMethods = s.methods := rfl
  have hiter := listGetIterator_spec hrep₂ hl₂ .head
  rw [show Direction.head.order s.nodes = s.nodes from rfl] at hiter
  simp only [listDup, hr₁, hrep₁.list_eq hl₁, hmethods, hr₂, hiter, Exec.ok_bind]
  generalize whileNext id (dupBody m s.methods copy) h₂.fuel ⟨first s.nodes none, .head⟩ h₂ = r at hloop
  cases hloop with
  | outOfMemory => exact .inl rfl
  | complete ys hall hvalues hfreed hrep =>
    rw [Finmap.insert_insert] at hrep
    exact .inr (.inl ⟨hall, _, copy, ys, rfl, hnone, hvalues, hfreed.trans (hfreed₂.trans hfreed₁), hrep⟩)
  | failed hsome hfreed hrep =>
    have herase : (σ.insert copy ⟨[], s.methods⟩).erase copy = σ := by
      apply Finmap.ext_lookup
      intro k
      by_cases hk : k = copy
      · rw [hk, Finmap.lookup_erase, hnone]
      · rw [Finmap.lookup_erase_ne hk, Finmap.lookup_insert_of_ne _ hk]
    rw [herase] at hrep
    exact .inr (.inr ⟨hsome, _, rfl, hfreed.trans (congrArg (· ++ _) (hfreed₂.trans hfreed₁)), hrep⟩)

end Copying

end RhinoRox.Adlist
