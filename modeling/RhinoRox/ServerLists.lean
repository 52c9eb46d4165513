import RhinoRox.AdlistRuns
import RhinoRox.EventLoop

/-!
# The lists of the server

The loops over the lists of clients (`rr_server.c`) follow pointers while they remove nodes. They do
what the event loop does with lists of clients.
-/

namespace RhinoRox.Adlist

open LinkedSegments FiniteMaps

variable {τ : Type}

variable {h : Heap ℕ} {σ : Sequences ℕ} {q : ℕ} {methods : Methods ℕ} {nodes : Nodes ℕ} {s : Sequence ℕ}

end RhinoRox.Adlist
