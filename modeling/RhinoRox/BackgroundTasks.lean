import RhinoRox.ByteStrings
import Mathlib.Data.List.Nodup
import Mathlib.Logic.Function.Basic

/-!
# The background thread and its queue

Threads that call `rr_bgt_add_task` allocate a task and then, holding the lock, append it to the
queue and signal the condition. The worker takes the first node with the lock held, handles and
frees the task without it, and unlinks the node with the lock held again. The memory of a freed
task and of an unlinked node may be reused at once.
-/

namespace RhinoRox.BgTask

variable {α : Type}

structure Task (α : Type) where
  subType : ℤ
  arg : α
  deriving DecidableEq, Repr

/-- What the switch of `thread_handler` does with a task. -/
inductive Handled (α : Type) where
  | decrRefCount (arg : α)
  | unknownSubType (subType : ℤ)
  deriving DecidableEq, Repr

def subtypeFreeObj : ℤ := 0

def Task.handle (task : Task α) : Handled α :=
  if task.subType = subtypeFreeObj then .decrRefCount task.arg else .unknownSubType task.subType

structure ListNode where
  addr : ℕ
  value : ℕ
  deriving DecidableEq, Repr

/-- Where the worker is: before its first lock, in `pthread_cond_wait`, on its way out of it, between
the unlock and the end of the task, and before it locks again. -/
inductive Worker where
  | start
  | waiting
  | woken
  | processing (ln task : ℕ)
  | processed (ln : ℕ)
  deriving DecidableEq, Repr

structure State (α : Type) where
  memory : ℕ → Option (Task α)
  /-- Tasks that were allocated and not yet appended. -/
  pending : List ℕ
  queue : List ListNode
  worker : Worker
  handled : List (Handled α)

/-- After `rr_bgt_init`. -/
def init : State α := ⟨fun _ => none, [], [], .start, []⟩

/-- `pthread_cond_signal` lets a waiting worker go on. -/
def Worker.signal : Worker → Worker
  | .waiting => .woken
  | w => w

def listDelNode (queue : List ListNode) (ln : ℕ) : Exec (List ListNode) :=
  if queue.any (·.addr == ln) then pure (queue.eraseP (·.addr == ln)) else throw .freedMemory

namespace State

/-- The head of the loop, with the lock held. -/
def loop (s : State α) : State α :=
  match s.queue with
  | [] => { s with worker := .waiting }
  | ln :: _ => { s with worker := .processing ln.addr ln.value }

/-- One section of the worker between two operations on the lock, and `none` while it is blocked. -/
def work (s : State α) : Exec (Option (State α)) :=
  match s.worker with
  | .start => pure (some s.loop)
  | .waiting => pure none
  | .woken => pure (some s.loop)
  | .processing ln task =>
    match s.memory task with
    | none => throw .freedMemory
    | some t =>
      pure (some { s with
        handled := s.handled ++ [t.handle]
        memory := Function.update s.memory task none
        worker := .processed ln })
  | .processed ln => do
    let queue ← listDelNode s.queue ln
    pure (some { s with queue := queue }.loop)

end State

inductive Event (α : Type) where
  | malloc
  | add (task : Task α)
  | spurious
  | work
  deriving DecidableEq, Repr

/-- The task that an event appends. -/
def Event.given : Event α → Option (Task α)
  | .malloc => none
  | .add task => some task
  | .spurious => none
  | .work => none

/-- Memory is handed out if nothing is stored there; a wake-up may be spurious. -/
inductive Step : State α → Event α → State α → Prop where
  | malloc {s : State α} (task : Task α) (a : ℕ) (free : s.memory a = none) :
      Step s .malloc { s with memory := Function.update s.memory a (some task), pending := s.pending ++ [a] }
  | add {s : State α} (task : Task α) (a node : ℕ) (pending : a ∈ s.pending) (stored : s.memory a = some task)
      (free : ∀ n ∈ s.queue, n.addr ≠ node) :
      Step s (.add task)
        { s with pending := s.pending.erase a, queue := s.queue ++ [⟨node, a⟩], worker := s.worker.signal }
  | spurious {s : State α} (waits : s.worker = .waiting) : Step s .spurious { s with worker := .woken }
  | work {s s' : State α} (run : s.work = .ok (some s')) : Step s .work s'

/-- Any interleaving. -/
inductive Steps (s : State α) : List (Event α) → State α → Prop where
  | nil : Steps s [] s
  | snoc {es : List (Event α)} {s' s'' : State α} {e : Event α} (before : Steps s es s') (last : Step s' e s'') :
      Steps s (es ++ [e]) s''

/-- The tasks in the order in which they were appended. -/
def added (es : List (Event α)) : List (Task α) := es.filterMap Event.given

/-- The nodes whose tasks are still to be handled. -/
def State.unhandled (s : State α) : List ListNode :=
  match s.worker with
  | .processed _ => s.queue.tail
  | _ => s.queue

/-- What the worker knows about the queue. -/
def Worker.Knows : Worker → List ListNode → Prop
  | .waiting, queue => queue = []
  | .processing ln task, queue => queue.head? = some ⟨ln, task⟩
  | .processed ln, queue => ∃ task, queue.head? = some ⟨ln, task⟩
  | _, _ => True

/-- The queue of the threads holds the abstract queue `ts`. -/
structure Queued (s : State α) (ts : List (Task α)) : Prop where
  tasks : s.unhandled.map (fun n => s.memory n.value) = ts.map some
  apart : (s.pending ++ s.unhandled.map ListNode.value).Nodup
  live : ∀ a ∈ s.pending, s.memory a ≠ none
  nodes : (s.queue.map ListNode.addr).Nodup
  knows : s.worker.Knows s.queue

section Loop
variable (s : State α)

theorem loop_fields : s.loop.queue = s.queue ∧ s.loop.memory = s.memory ∧ s.loop.pending = s.pending ∧
    s.loop.handled = s.handled ∧ s.loop.unhandled = s.queue ∧ s.loop.worker.Knows s.queue := by
  cases hq : s.queue <;> simp [State.loop, hq, State.unhandled, Worker.Knows]

/-- The worker waits only if the queue is empty. -/
theorem loop_worker : s.queue = [] ∧ s.loop.worker = .waiting ∨ ∃ ln task, s.loop.worker = .processing ln task := by
  cases hq : s.queue with
  | nil => exact .inl ⟨rfl, by simp [State.loop, hq]⟩
  | cons ln rest => exact .inr ⟨ln.addr, ln.value, by simp [State.loop, hq]⟩

end Loop

variable {s s' : State α} {ts : List (Task α)}

theorem Queued.loop (tasks : s.queue.map (fun n => s.memory n.value) = ts.map some)
    (apart : (s.pending ++ s.queue.map ListNode.value).Nodup) (live : ∀ a ∈ s.pending, s.memory a ≠ none)
    (nodes : (s.queue.map ListNode.addr).Nodup) : Queued s.loop ts := by
  obtain ⟨hqueue, hmemory, hpending, -, hunhandled, hknows⟩ := loop_fields s
  refine ⟨?_, ?_, ?_, ?_, ?_⟩
  · rw [hunhandled, hmemory, tasks]
  · rw [hunhandled, hpending]
    exact apart
  · rw [hpending, hmemory]
    exact live
  · rw [hqueue]
    exact nodes
  · rw [hqueue]
    exact hknows

/-- Memory outside the queue may change. -/
theorem map_memory_update {m : ℕ → Option (Task α)} {a : ℕ} {v : Option (Task α)} {nodes : List ListNode}
    (ha : a ∉ nodes.map ListNode.value) :
    nodes.map (fun n => Function.update m a v n.value) = nodes.map (fun n => m n.value) := by
  refine List.map_congr_left fun n hn => ?_
  refine Function.update_of_ne ?_ _ _
  intro he
  exact ha (he ▸ List.mem_map_of_mem hn)

theorem Queued.stored (h : Queued s ts) {a : ℕ} (ha : a ∈ s.pending ++ s.unhandled.map ListNode.value) :
    s.memory a ≠ none := by
  rcases List.mem_append.mp ha with ha | ha
  · exact h.live a ha
  · obtain ⟨n, hn, rfl⟩ := List.mem_map.mp ha
    have hm : s.memory n.value ∈ ts.map some := by
      rw [← h.tasks]
      exact List.mem_map_of_mem hn
    obtain ⟨t, -, ht⟩ := List.mem_map.mp hm
    rw [← ht]
    exact Option.some_ne_none t

theorem Queued.malloc (h : Queued s ts) (task : Task α) {a : ℕ} (free : s.memory a = none) :
    Queued { s with memory := Function.update s.memory a (some task), pending := s.pending ++ [a] } ts := by
  have hnew : a ∉ s.pending ++ s.unhandled.map ListNode.value := fun ha => h.stored ha free
  rw [List.mem_append, not_or] at hnew
  refine ⟨?_, ?_, fun b hb => ?_, h.nodes, h.knows⟩
  · show s.unhandled.map (fun n => Function.update s.memory a (some task) n.value) = _
    rw [map_memory_update hnew.2, h.tasks]
  · show (s.pending ++ [a] ++ s.unhandled.map ListNode.value).Nodup
    rw [List.append_assoc, List.singleton_append]
    exact List.nodup_middle.mpr (List.nodup_cons.mpr ⟨by simpa [not_or] using hnew, h.apart⟩)
  · show Function.update s.memory a (some task) b ≠ none
    rcases List.mem_append.mp hb with hb | hb
    · have hne : b ≠ a := fun he => hnew.1 (he ▸ hb)
      rw [Function.update_of_ne hne]
      exact h.live b hb
    · rw [List.mem_singleton.mp hb, Function.update_self]
      exact Option.some_ne_none task

theorem Worker.Knows.append {w : Worker} {queue : List ListNode} (h : w.Knows queue) (n : ListNode) :
    w.signal.Knows (queue ++ [n]) := by
  cases w with
  | start => trivial
  | waiting => trivial
  | woken => trivial
  | processing ln task =>
    show (queue ++ [n]).head? = _
    rw [List.head?_append, show queue.head? = _ from h, Option.some_or]
  | processed ln =>
    obtain ⟨task, ht⟩ := h
    refine ⟨task, ?_⟩
    rw [List.head?_append, ht, Option.some_or]

theorem Queued.unhandled_append (h : Queued s ts) (pending : List ℕ) (n : ListNode) :
    ({ s with pending := pending, queue := s.queue ++ [n], worker := s.worker.signal } : State α).unhandled =
      s.unhandled ++ [n] := by
  have hk := h.knows
  cases hw : s.worker with
  | processed ln =>
    rw [hw] at hk
    obtain ⟨task, ht⟩ := hk
    have hne : s.queue ≠ [] := fun he => by simp [he] at ht
    simp only [State.unhandled, hw, Worker.signal]
    exact List.tail_append_of_ne_nil hne
  | start => simp only [State.unhandled, hw, Worker.signal]
  | waiting => simp only [State.unhandled, hw, Worker.signal]
  | woken => simp only [State.unhandled, hw, Worker.signal]
  | processing ln task => simp only [State.unhandled, hw, Worker.signal]

theorem Queued.add (h : Queued s ts) {task : Task α} {a node : ℕ} (pending : a ∈ s.pending)
    (stored : s.memory a = some task) (free : ∀ n ∈ s.queue, n.addr ≠ node) :
    Queued { s with pending := s.pending.erase a, queue := s.queue ++ [⟨node, a⟩], worker := s.worker.signal }
      (ts ++ [task]) := by
  have hun := h.unhandled_append (s.pending.erase a) ⟨node, a⟩
  refine ⟨?_, ?_, fun b hb => h.live b (List.mem_of_mem_erase hb), ?_, h.knows.append _⟩
  · rw [hun, List.map_append, List.map_append, h.tasks]
    exact congrArg (ts.map some ++ [·]) stored
  · rw [hun, List.map_append, ← List.append_assoc]
    have hperm : (s.pending.erase a ++ s.unhandled.map ListNode.value ++ [a]).Perm
        (s.pending ++ s.unhandled.map ListNode.value) := by
      refine (List.perm_append_comm.trans ?_)
      exact (List.perm_cons_erase pending).symm.append_right _
    exact hperm.nodup_iff.mpr h.apart
  · show ((s.queue ++ [(⟨node, a⟩ : ListNode)]).map ListNode.addr).Nodup
    rw [List.map_append]
    refine List.nodup_append.mpr ⟨h.nodes, List.nodup_singleton _, fun x hx y hy he => ?_⟩
    obtain ⟨n, hn, rfl⟩ := List.mem_map.mp hx
    exact free n hn (he.trans (List.mem_singleton.mp hy))

theorem Queued.spurious (h : Queued s ts) (waits : s.worker = .waiting) : Queued { s with worker := .woken } ts := by
  have hun : ({ s with worker := .woken } : State α).unhandled = s.unhandled := by
    simp only [State.unhandled, waits]
  refine ⟨?_, ?_, h.live, h.nodes, trivial⟩
  · rw [hun]
    exact h.tasks
  · rw [hun]
    exact h.apart

/-- The first task is handled with its node still linked. -/
theorem Queued.process (h : Queued s ts) {ln a : ℕ} (hw : s.worker = .processing ln a) :
    ∃ t ts', ts = t :: ts' ∧ s.memory a = some t ∧
      Queued { s with
        handled := s.handled ++ [t.handle]
        memory := Function.update s.memory a none
        worker := .processed ln } ts' := by
  obtain ⟨htasks, hapart, hlive, hnodes, hknows⟩ := h
  rw [hw] at hknows
  obtain ⟨rest, hq⟩ := List.head?_eq_some_iff.mp (show s.queue.head? = _ from hknows)
  have hun : s.unhandled = ⟨ln, a⟩ :: rest := by simp only [State.unhandled, hw, hq]
  rw [hun, List.map_cons] at htasks
  obtain ⟨t, ts', rfl, ht, hts⟩ := List.map_eq_cons_iff.mp htasks.symm
  rw [hun, List.map_cons, List.nodup_middle, List.nodup_cons, List.mem_append, not_or] at hapart
  obtain ⟨⟨hpending, hrest⟩, hapart⟩ := hapart
  refine ⟨t, ts', rfl, ht.symm, ?_, ?_, fun b hb => ?_, hnodes, ⟨a, ?_⟩⟩
  · show s.queue.tail.map _ = _
    rw [hq, List.tail_cons, hts]
    exact map_memory_update hrest
  · show (s.pending ++ s.queue.tail.map ListNode.value).Nodup
    rw [hq]
    exact hapart
  · have hne : b ≠ a := fun he => hpending (he ▸ hb)
    show Function.update s.memory a none b ≠ none
    rw [Function.update_of_ne hne]
    exact hlive b hb
  · exact hknows

/-- The node that is unlinked is the first one. -/
theorem Queued.unlink (h : Queued s ts) {ln : ℕ} (hw : s.worker = .processed ln) :
    ∃ a rest, s.queue = ⟨ln, a⟩ :: rest ∧ listDelNode s.queue ln = .ok rest ∧
      Queued { s with queue := rest }.loop ts := by
  obtain ⟨htasks, hapart, hlive, hnodes, hknows⟩ := h
  rw [hw] at hknows
  obtain ⟨a, ha⟩ := hknows
  obtain ⟨rest, hq⟩ := List.head?_eq_some_iff.mp ha
  have hun : s.unhandled = rest := by simp only [State.unhandled, hw, hq, List.tail_cons]
  rw [hun] at htasks hapart
  rw [hq, List.map_cons, List.nodup_cons] at hnodes
  refine ⟨a, rest, hq, ?_, Queued.loop htasks hapart hlive hnodes.2⟩
  rw [hq, listDelNode, if_pos (by simp), List.eraseP_cons_of_pos (by simp)]
  rfl

/-- What one section of the worker can be. -/
inductive Turn (s : State α) (ts : List (Task α)) : Prop where
  | blocked (waits : s.worker = .waiting) (run : s.work = .ok none)
  | look (rest : List ListNode) (idle : ∀ ln a, s.worker ≠ .processing ln a)
      (run : s.work = .ok (some { s with queue := rest }.loop)) (queued : Queued { s with queue := rest }.loop ts)
  | process (ln a : ℕ) (t : Task α) (ts' : List (Task α)) (s' : State α) (holds : s.worker = .processing ln a)
      (first : ts = t :: ts') (run : s.work = .ok (some s')) (worker : s'.worker = .processed ln)
      (handled : s'.handled = s.handled ++ [t.handle]) (queued : Queued s' ts')

theorem Queued.turn (h : Queued s ts) : Turn s ts := by
  cases hw : s.worker with
  | start =>
    have hun : s.unhandled = s.queue := by simp only [State.unhandled, hw]
    refine .look s.queue (by simp [hw]) (by rw [State.work, hw]; rfl) ?_
    exact .loop (hun ▸ h.tasks) (hun ▸ h.apart) h.live h.nodes
  | waiting => exact .blocked hw (by rw [State.work, hw]; rfl)
  | woken =>
    have hun : s.unhandled = s.queue := by simp only [State.unhandled, hw]
    refine .look s.queue (by simp [hw]) (by rw [State.work, hw]; rfl) ?_
    exact .loop (hun ▸ h.tasks) (hun ▸ h.apart) h.live h.nodes
  | processing ln a =>
    obtain ⟨t, ts', hts, ht, hq⟩ := h.process hw
    refine .process ln a t ts' _ hw hts ?_ rfl rfl hq
    rw [State.work, hw]
    simp only [ht]
    rfl
  | processed ln =>
    obtain ⟨a, rest, -, hdel, hq⟩ := h.unlink hw
    refine .look rest (by simp [hw]) ?_ hq
    rw [State.work, hw]
    simp only [hdel]
    rfl

/-- A step of any thread is a step of the abstract queue: the first task is handled, a task is
appended, or nothing happens. -/
theorem Step.queued {e : Event α} (h : Step s e s') (hq : Queued s ts) :
    (∃ t ts', ts = t :: ts' ∧ e = .work ∧ s'.handled = s.handled ++ [t.handle] ∧ Queued s' ts') ∨
      s'.handled = s.handled ∧ Queued s' (ts ++ e.given.toList) := by
  cases h with
  | malloc task a free =>
    rw [Event.given, Option.toList_none, List.append_nil]
    exact .inr ⟨rfl, hq.malloc task free⟩
  | add task a node pending stored free => exact .inr ⟨rfl, hq.add pending stored free⟩
  | spurious waits =>
    rw [Event.given, Option.toList_none, List.append_nil]
    exact .inr ⟨rfl, hq.spurious waits⟩
  | work run =>
    rw [Event.given, Option.toList_none, List.append_nil]
    cases hq.turn with
    | blocked _ run' => cases run.symm.trans run'
    | look rest _ run' hq' =>
      cases run.symm.trans run'
      exact .inr ⟨(loop_fields _).2.2.2.1, hq'⟩
    | process _ _ t ts' _ _ first run' _ hhandled hq' =>
      cases run.symm.trans run'
      exact .inl ⟨t, ts', first, rfl, hhandled, hq'⟩

theorem init_queued : Queued (init : State α) [] :=
  ⟨rfl, List.nodup_nil, fun _ ha => absurd ha List.not_mem_nil, List.nodup_nil, trivial⟩

theorem added_snoc (es : List (Event α)) (e : Event α) : added (es ++ [e]) = added es ++ e.given.toList := by
  rw [added, List.filterMap_append]
  cases hg : e.given <;> simp [added, hg]

/-- Along a run the handled tasks and the queue are all the tasks, in order. -/
theorem Steps.queued {es : List (Event α)} {done : List (Task α)} (h : Steps s es s') (hq : Queued s ts)
    (hdone : s.handled = done.map Task.handle) :
    ∃ done' ts', Queued s' ts' ∧ s'.handled = done'.map Task.handle ∧ done' ++ ts' = done ++ ts ++ added es := by
  induction h with
  | nil => exact ⟨done, ts, hq, hdone, by simp [added]⟩
  | @snoc es s₁ s₂ e _ last ih =>
    obtain ⟨done', ts', hq', hdone', hsum⟩ := ih
    rw [added_snoc, ← List.append_assoc, ← hsum]
    rcases last.queued hq' with ⟨t, ts'', rfl, rfl, hhandled, hq''⟩ | ⟨hhandled, hq''⟩
    · refine ⟨done' ++ [t], ts'', hq'', ?_, ?_⟩
      · rw [hhandled, hdone', List.map_append, List.map_singleton]
      · simp [Event.given]
    · refine ⟨done', _, hq'', hhandled.trans hdone', ?_⟩
      rw [List.append_assoc]

/-- Twice the number of handled tasks, and one more while a task is being handled. -/
def State.position (s : State α) : ℕ :=
  2 * s.handled.length +
    match s.worker with
    | .processing _ _ => 1
    | _ => 0

theorem position_of_idle (hw : ∀ ln a, s.worker ≠ .processing ln a) : s.position = 2 * s.handled.length := by
  unfold State.position
  split
  · rename_i ln a he
    exact absurd he (hw ln a)
  · rfl

theorem position_of_processing {ln a : ℕ} (hw : s.worker = .processing ln a) :
    s.position = 2 * s.handled.length + 1 := by
  simp only [State.position, hw]

theorem Queued.unique {ts' : List (Task α)} (h : Queued s ts) (h' : Queued s ts') : ts = ts' :=
  List.map_injective_iff.mpr (Option.some_injective _) (h.tasks.symm.trans h'.tasks)

/-- The number of sections of the worker in a run. -/
def works (es : List (Event α)) : ℕ := (es.map fun | .work => 1 | _ => 0).sum

theorem works_snoc (es : List (Event α)) (e : Event α) : works (es ++ [e]) = works es + works [e] := by
  simp [works]

/-- A section of the worker brings it forward, unless there is nothing left to do. -/
theorem Step.position {e : Event α} (h : Step s e s') (hq : Queued s ts) :
    s.position + works [e] ≤ s'.position ∨ Queued s' [] := by
  cases h with
  | malloc task a free => exact .inl le_rfl
  | add task a node pending stored free =>
    refine .inl (le_of_eq ?_)
    cases hw : s.worker <;> simp [State.position, hw, Worker.signal, works]
  | spurious waits =>
    refine .inl (le_of_eq ?_)
    simp [State.position, waits, works]
  | work run =>
    have hone : works [(.work : Event α)] = 1 := rfl
    cases hq.turn with
    | blocked _ run' => cases run.symm.trans run'
    | look rest idle run' hq' =>
      cases run.symm.trans run'
      have hhandled : ({ s with queue := rest } : State α).loop.handled = s.handled := (loop_fields _).2.2.2.1
      rcases loop_worker { s with queue := rest } with ⟨hempty, -⟩ | ⟨ln, a, hw⟩
      · right
        have hnil : ts = [] := by
          have htasks := hq'.tasks
          rw [(loop_fields _).2.2.2.2.1, hempty, List.map_nil] at htasks
          exact List.map_eq_nil_iff.mp htasks.symm
        rw [← hnil]
        exact hq'
      · left
        rw [position_of_processing hw, position_of_idle idle, hhandled, hone]
    | process ln a t ts' _ holds first run' worker hhandled hq' =>
      cases run.symm.trans run'
      left
      rw [position_of_processing holds, position_of_idle (by simp [worker]), hhandled, hone, List.length_append,
        List.length_singleton]
      omega

theorem Steps.position {es : List (Event α)} {done : List (Task α)} {k : ℕ} (h : Steps s es s') (hq : Queued s ts)
    (hdone : s.handled = done.map Task.handle) (hk : k ≤ (done ++ ts).length) :
    min (2 * k) (s.position + works es) ≤ s'.position := by
  induction h with
  | nil => exact min_le_right _ _
  | @snoc es s₁ s₂ e before last ih =>
    obtain ⟨done₁, ts₁, hq₁, -, -⟩ := before.queued hq hdone
    obtain ⟨done₂, ts₂, hq₂, hdone₂, hsum⟩ := (before.snoc last).queued hq hdone
    rw [works_snoc]
    rcases last.position hq₁ with hstep | hempty
    · omega
    · obtain rfl : ts₂ = [] := hq₂.unique hempty
      have hlen : (done ++ ts).length ≤ done₂.length := by
        rw [List.append_nil] at hsum
        rw [hsum]
        exact (List.prefix_append _ _).length_le
      have hpos : 2 * s₂.handled.length ≤ s₂.position := Nat.le_add_right _ _
      rw [hdone₂, List.length_map] at hpos
      omega

/-- Only the worker unlinks nodes. -/
theorem Step.queue_prefix {e : Event α} (h : Step s e s') (he : e ≠ .work) : s.queue <+: s'.queue := by
  cases h with
  | malloc task a free => exact List.prefix_rfl
  | add task a node pending stored free => exact List.prefix_append _ _
  | spurious waits => exact List.prefix_rfl
  | work run => exact absurd rfl he

/-- Every task that was added is handled once, in order; the node that the worker holds is the first
one; and the worker waits only with an empty queue. -/
structure Served (tasks : List (Task α)) (s : State α) : Prop where
  inOrder : s.handled = (tasks.take s.handled.length).map Task.handle
  holds : ∀ ln a, s.worker = .processing ln a → s.queue.head? = some ⟨ln, a⟩
  unlinks : ∀ ln, s.worker = .processed ln →
    ∃ a rest s', s.queue = ⟨ln, a⟩ :: rest ∧ s.work = .ok (some s') ∧ s'.queue = rest
  kept : ∀ e s', Step s e s' → e ≠ .work → s.queue <+: s'.queue
  waits : s.worker = .waiting → s.queue = []
  works : ∃ r, s.work = .ok r ∧ (r = none → s.handled.length = tasks.length)
  handlesAll : ∀ es s', Steps s es s' → 2 * (tasks.length - s.handled.length) ≤ BgTask.works es →
    tasks.length ≤ s'.handled.length

theorem tasks_handled_in_order {es : List (Event α)} (h : Steps init es s) : Served (added es) s := by
  have hstart : (init : State α).handled = ([] : List (Task α)).map Task.handle := rfl
  obtain ⟨done, ts, hq, hdone, hsum⟩ := h.queued init_queued hstart
  rw [List.append_nil, List.nil_append] at hsum
  have hlen : s.handled.length = done.length := by rw [hdone, List.length_map]
  refine ⟨?_, fun ln a hw => ?_, fun ln hw => ?_, fun e s' hstep he => hstep.queue_prefix he, fun hw => ?_, ?_,
    fun es' s' hsteps hworks => ?_⟩
  · rw [← hsum, hlen, List.take_left, hdone]
  · have hk := hq.knows
    rw [hw] at hk
    exact hk
  · obtain ⟨a, rest, hqueue, hdel, -⟩ := hq.unlink hw
    refine ⟨a, rest, { s with queue := rest }.loop, hqueue, ?_, (loop_fields _).1⟩
    rw [State.work, hw]
    simp only [hdel]
    rfl
  · have hk := hq.knows
    rw [hw] at hk
    exact hk
  · cases hq.turn with
    | blocked waits run =>
      refine ⟨none, run, fun _ => ?_⟩
      -- a waiting worker has an empty queue, so every task has been handled
      have hk := hq.knows
      rw [waits] at hk
      have hqueue : s.queue = [] := hk
      have htasks := hq.tasks
      simp only [State.unhandled, waits, hqueue, List.map_nil] at htasks
      rw [← hsum, List.map_eq_nil_iff.mp htasks.symm, List.append_nil, hlen]
    | look rest _ run _ => exact ⟨_, run, fun he => by cases he⟩
    | process _ _ _ _ s' _ _ run _ _ _ => exact ⟨_, run, fun he => by cases he⟩
  · have hpos := hsteps.position hq hdone le_rfl
    have hstart : 2 * s.handled.length ≤ s.position := Nat.le_add_right _ _
    have hend : s'.position ≤ 2 * s'.handled.length + 1 := by
      unfold State.position
      split <;> omega
    rw [hsum] at hpos
    omega

/-- The second task reuses the memory of the first one, whose node is still linked. -/
theorem tasks_handled_in_order_reuse :
    ∃ s : State ℕ, Steps init [.work, .malloc, .add ⟨0, 7⟩, .work, .work, .malloc, .add ⟨0, 8⟩] s ∧
      s.queue = [⟨1, 0⟩, ⟨2, 0⟩] ∧ s.handled = [.decrRefCount 7] ∧ Served [⟨0, 7⟩, ⟨0, 8⟩] s := by
  have h₁ : Steps (init : State ℕ) [.work] _ := .snoc .nil (.work rfl)
  have h₂ := h₁.snoc (.malloc ⟨0, 7⟩ 0 rfl)
  have h₃ := h₂.snoc (.add ⟨0, 7⟩ 0 1 (List.mem_singleton_self 0) rfl (fun n hn => by cases hn))
  have h₄ := h₃.snoc (.work rfl)
  have h₅ := h₄.snoc (.work rfl)
  have h₆ := h₅.snoc (.malloc ⟨0, 8⟩ 0 rfl)
  have h₇ := h₆.snoc (.add ⟨0, 8⟩ 0 2 (List.mem_singleton_self 0) rfl (by decide))
  exact ⟨_, h₇, rfl, rfl, tasks_handled_in_order h₇⟩

end RhinoRox.BgTask
