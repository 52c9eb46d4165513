import RhinoRox.FiniteMaps
import RhinoRox.Resp
import Mathlib.Algebra.Order.BigOperators.Group.Finset

/-!
# What the server is for

A store gives keys values: strings, tries, queues with priorities and sets of documents. There are
no objects, references or encodings in it. Items of equal priority and documents of equal score may
be served in any order. A service is a store together with the arguments that its clients have
sent so far.
-/

namespace RhinoRox.Store

open FiniteMaps

/-! ## Values -/

abbrev Table (α : Type) := Finmap fun _ : Bytes => α

structure Doc where
  title : Bytes
  text : Bytes

inductive Value where
  | string (s : Bytes)
  | trie (fields : Table Bytes)
  | queue (items : Multiset (UInt64 × Bytes))
  | documents (docs : Table Doc)

abbrev State := Table Value

/-! ## Responds -/

inductive Reply where
  | status (s : Bytes)
  | error (s : Bytes)
  | integer (n : ℤ)
  | bulk (s : Bytes)
  | null
  | array (items : List Bytes)

namespace Reply

/-- The answer on the wire. -/
def encode : Reply → Bytes
  | status s => 43 :: (s ++ [13, 10])
  | error s => 45 :: (s ++ [13, 10])
  | integer n => 58 :: (integerText n ++ [13, 10])
  | bulk s => encodeArg s
  | null => [36, 45, 49, 13, 10]
  | array items => headerLine 42 items.length ++ encodeArgs items

def ok : Reply := status (ascii "OK")

def flag (b : Bool) : Reply := integer b.toNat

def wrongType : Reply := error (ascii "WRONGTYPE Operation against a key holding the wrong kind of value")

/-- The answer for a key that is not there: a string that reads like a null. -/
def absent : Reply := bulk (encode null)

def bulk? : Option Bytes → Reply
  | none => null
  | some s => bulk s

end Reply

/-! ## Commands on one key -/

inductive TrieCommand where
  | rget (field : Bytes)
  | rexists (field : Bytes)
  | rdel (field : Bytes)
  | rlen
  | rkeys
  | rvalues
  | rgetall
  | rpget (pre : Bytes)

inductive QueueCommand where
  | qpop
  | qpopn (n : ℕ)
  | qpeek
  | qlen

inductive DocumentCommand where
  | dget (title : Bytes)
  | ddel (title : Bytes)
  | dlen
  | dsearch (query : Bytes)

inductive KeyCommand where
  | get
  | set (v : Bytes)
  | del
  | exists
  | type
  | trie (c : TrieCommand)
  | rset (field v : Bytes)
  | queue (c : QueueCommand)
  | qpush (score : UInt64) (v : Bytes)
  | documents (c : DocumentCommand)
  | dset (title : Bytes) (d : Doc)

inductive Request where
  | nothing
  | quit
  | refused (error : Bytes)
  | ping
  | echo (s : Bytes)
  | len
  | shutdown
  | key (k : Bytes) (c : KeyCommand)

/-- What the service is built from: the terms of a text, the contribution of a term to a score, the
order of the priorities and the reading of requests. -/
structure Rules (G : Type) where
  terms : Bytes → List Bytes
  bm25 : ℤ → ℤ → ℕ → ℕ → ℤ → G
  rank : UInt64 → ℤ
  interpret : List Bytes → Request

/-! ## Tries -/

def fieldAndValue (e : Bytes × Bytes) : List Bytes := [e.1, e.2]

def TrieCommand.Acts : TrieCommand → Table Bytes → Table Bytes → Reply → Prop
  | rget field, m, m', r => m' = m ∧ r = .bulk? (m.lookup field)
  | rexists field, m, m', r => m' = m ∧ r = .flag (m.lookup field).isSome
  | rdel field, m, m', r => m' = m.erase field ∧ r = .flag (m.lookup field).isSome
  | rlen, m, m', r => m' = m ∧ r = .integer m.keys.card
  | rkeys, m, m', r => m' = m ∧ ∃ xs, Lists xs m ∧ r = .array (xs.map Prod.fst)
  | rvalues, m, m', r => m' = m ∧ ∃ xs, Lists xs m ∧ r = .array (xs.map Prod.snd)
  | rgetall, m, m', r => m' = m ∧ ∃ xs, Lists xs m ∧ r = .array (xs.flatMap fieldAndValue)
  | rpget pre, m, m', r =>
    m' = m ∧ ∃ xs, Lists xs m ∧ r = .array ((xs.filter fun e => pre.isPrefixOf e.1).flatMap fieldAndValue)

/-! ## Queues -/

/-- The first `n` items in ascending order of priority, or all if there are fewer. -/
structure Taken (rank : UInt64 → ℤ) (n : ℕ) (items : Multiset (UInt64 × Bytes)) (taken : List (UInt64 × Bytes))
    (left : Multiset (UInt64 × Bytes)) : Prop where
  parts : items = ↑taken + left
  number : taken.length = min n items.card
  ordered : taken.Pairwise fun x y => rank x.1 ≤ rank y.1
  first : ∀ x ∈ taken, ∀ y ∈ left, rank x.1 ≤ rank y.1

def QueueCommand.Acts (rank : UInt64 → ℤ) :
    QueueCommand → Multiset (UInt64 × Bytes) → Multiset (UInt64 × Bytes) → Reply → Prop
  | qpop, q, q', r => ∃ taken, Taken rank 1 q taken q' ∧ r = .bulk? (taken.head?.map Prod.snd)
  | qpopn n, q, q', r => ∃ taken, Taken rank n q taken q' ∧ r = .array (taken.map Prod.snd)
  | qpeek, q, q', r => q' = q ∧ ∃ taken left, Taken rank 1 q taken left ∧ r = .bulk? (taken.head?.map Prod.snd)
  | qlen, q, q', r => q' = q ∧ r = .integer q.card

/-! ## Sets of documents -/

section Documents
variable {G : Type} (ρ : Rules G) (docs : Table Doc)

/-- The number of documents with a term. -/
def frequency (t : Bytes) : ℕ :=
  (docs.keys.filter fun k => (docs.lookup k).any fun d => decide (t ∈ (ρ.terms d.text).toFinset)).card

/-- The length of all documents together. -/
def totalLength : ℤ := ∑ k ∈ docs.keys, ((docs.lookup k).map fun d => ((ρ.terms d.text).length : ℤ)).getD 0

/-- One contribution for each term of the query that occurs in the document. -/
def score [AddCommGroup G] (query : Bytes) (d : Doc) : G :=
  ∑ t ∈ (ρ.terms query).toFinset ∩ (ρ.terms d.text).toFinset, ρ.bm25 ((ρ.terms d.text).count t)
    (ρ.terms d.text).length (frequency ρ docs t) (max 1 docs.keys.card) (totalLength ρ docs)

def SharesTerm (query : Bytes) (d : Doc) : Prop := ((ρ.terms query).toFinset ∩ (ρ.terms d.text).toFinset).Nonempty

instance (query : Bytes) (d : Doc) : Decidable (SharesTerm ρ query d) := inferInstanceAs (Decidable (Finset.Nonempty _))

/-- All documents that share a term with the query, each once, higher scores first. -/
structure Ranking [AddCommGroup G] [LE G] (query : Bytes) (found : List (Bytes × Doc)) : Prop where
  once : (found.map Prod.fst).Nodup
  mem_iff : ∀ k d, (k, d) ∈ found ↔ docs.lookup k = some d ∧ SharesTerm ρ query d
  ordered : found.Pairwise fun x y => score ρ docs query y.2 ≤ score ρ docs query x.2

def titleAndText (e : Bytes × Doc) : List Bytes := [e.2.title, e.2.text]

variable {docs}

def DocumentCommand.Acts [AddCommGroup G] [LE G] : DocumentCommand → Table Doc → Table Doc → Reply → Prop
  | dget title, m, m', r => m' = m ∧ r = .bulk? ((m.lookup title).map Doc.text)
  | ddel title, m, m', r => m' = m.erase title ∧ r = .flag (m.lookup title).isSome
  | dlen, m, m', r => m' = m ∧ r = .integer m.keys.card
  | dsearch query, m, m', r => m' = m ∧ ∃ found, Ranking ρ m query found ∧ r = .array (found.flatMap titleAndText)

end Documents

/-! ## Keys -/

/-- A command on a collection that it does not create. -/
inductive OnExisting {γ : Type} (wrap : γ → Value) (act : γ → γ → Reply → Prop) :
    Option Value → Option Value → Reply → Prop where
  | absent : OnExisting wrap act none none .absent
  | wrongType {v : Value} (h : ∀ x, v ≠ wrap x) : OnExisting wrap act (some v) (some v) .wrongType
  | here {x y : γ} {r : Reply} (h : act x y r) : OnExisting wrap act (some (wrap x)) (some (wrap y)) r

/-- A command on a collection that it creates if there is none. -/
inductive OnCreated {γ : Type} (wrap : γ → Value) (new : γ) (act : γ → γ) : Option Value → Option Value → Reply → Prop where
  | absent : OnCreated wrap new act none (some (wrap (act new))) .ok
  | wrongType {v : Value} (h : ∀ x, v ≠ wrap x) : OnCreated wrap new act (some v) (some v) .wrongType
  | here (x : γ) : OnCreated wrap new act (some (wrap x)) (some (wrap (act x))) .ok

def typeName : Option Value → Bytes
  | none => ascii "none"
  | some (.string _) => ascii "string"
  | some (.trie _) => ascii "trie"
  | some (.queue _) => ascii "heapq"
  | some (.documents _) => ascii "fts"

def getReply : Option Value → Reply
  | none => .null
  | some (.string s) => .bulk s
  | some _ => .wrongType

variable {G : Type} [AddCommGroup G] [LE G] (ρ : Rules G)

/-- From the value of the key before the command to the value after it. -/
def KeyCommand.Acts : KeyCommand → Option Value → Option Value → Reply → Prop
  | get, v, v', r => v' = v ∧ r = getReply v
  | set s, _, v', r => v' = some (.string s) ∧ r = .ok
  | del, v, v', r => v' = none ∧ r = .flag v.isSome
  | «exists», v, v', r => v' = v ∧ r = .flag v.isSome
  | type, v, v', r => v' = v ∧ r = .status (typeName v)
  | trie c, v, v', r => OnExisting .trie c.Acts v v' r
  | rset field s, v, v', r => OnCreated .trie ∅ (fun m => m.insert field s) v v' r
  | queue c, v, v', r => OnExisting .queue (c.Acts ρ.rank) v v' r
  | qpush x s, v, v', r => OnCreated .queue 0 (fun q => (x, s) ::ₘ q) v v' r
  | documents c, v, v', r => OnExisting .documents (c.Acts ρ) v v' r
  | dset title d, v, v', r => OnCreated .documents ∅ (fun m => m.insert title d) v v' r

/-! ## The service -/

/-- A request that is answered. A command on a key changes nothing but that key. -/
inductive Responds : State → Request → State → Option Reply → Prop where
  | nothing (σ : State) : Responds σ .nothing σ none
  | refused (σ : State) (error : Bytes) : Responds σ (.refused error) σ (some (.error error))
  | ping (σ : State) : Responds σ .ping σ (some (.status (ascii "PONG")))
  | echo (σ : State) (s : Bytes) : Responds σ (.echo s) σ (some (.bulk s))
  | len (σ : State) : Responds σ .len σ (some (.integer σ.keys.card))
  | key (σ : State) (k : Bytes) {c : KeyCommand} {v : Option Value} {r : Reply} (h : c.Acts ρ (σ.lookup k) v r) :
      Responds σ (.key k c) (put σ k v) (some r)

structure Service where
  store : State
  pending : ℕ → List Bytes

/-- What can be seen of a service: an argument arrives, a request is executed and the answer sent,
a client is gone, or something happens in the background. -/
inductive Observation (G : Type) where
  | argument (c : ℕ) (a : Bytes)
  | executed (ρ : Rules G) (c : ℕ) (sent : Bytes)
  | disconnected (c : ℕ)
  | background

namespace Service

def init : Service := ⟨∅, fun _ => []⟩

/-- After QUIT a client is not served any more. -/
inductive Step : Service → Observation G → Service → Prop where
  | argument (s : Service) (c : ℕ) (a : Bytes) :
      Step s (.argument c a) ⟨s.store, Function.update s.pending c (s.pending c ++ [a])⟩
  | executed (s : Service) (ρ : Rules G) (c : ℕ) {σ : State} {r : Option Reply}
      (h : Responds ρ s.store (ρ.interpret (s.pending c)) σ r) :
      Step s (.executed ρ c ((r.map Reply.encode).getD [])) ⟨σ, Function.update s.pending c []⟩
  | quit (s : Service) (ρ : Rules G) (c : ℕ) (h : ρ.interpret (s.pending c) = .quit) :
      Step s (.executed ρ c Reply.ok.encode) s
  | disconnected (s : Service) (c : ℕ) : Step s (.disconnected c) ⟨s.store, Function.update s.pending c []⟩
  | background (s : Service) : Step s .background s

end Service

end RhinoRox.Store
