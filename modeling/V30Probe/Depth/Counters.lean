import V30Probe.Depth

/-! Several depth counters, the handles that name them, and the scopes that are open on them. -/

namespace V30Probe

/-- A handle is a place in `handles`; a copy of it is another place with the same counter. -/
structure Counters where
  levels : Array Depth
  /-- The counter of each handle. -/
  handles : Array Nat
  /-- The counter of each open scope, oldest first. -/
  scopes : List Nat
  deriving DecidableEq, Repr

namespace Counters

def empty : Counters := ⟨#[], #[], []⟩

/-- A new counter at depth zero, and a handle on it. -/
def create (s : Counters) : Nat × Counters :=
  (s.handles.size,
   { s with levels := s.levels.push .zero, handles := s.handles.push s.levels.size })

/-- A second handle on the counter of a handle. -/
def copy (s : Counters) (handle : Nat) : Nat × Counters :=
  match s.handles[handle]? with
  | some counter => (s.handles.size, { s with handles := s.handles.push counter })
  | none => (handle, s)

/-- The depth that a handle shows. -/
def depth (s : Counters) (handle : Nat) : Depth :=
  (s.handles[handle]?.bind fun counter => s.levels[counter]?).getD .zero

/-- Opens a scope, which becomes the last one. -/
def enter (s : Counters) (handle : Nat) : Counters :=
  match s.handles[handle]? with
  | some counter =>
    { s with levels := s.levels.modify counter Depth.enter, scopes := s.scopes ++ [counter] }
  | none => s

/-- Closes the scope at a place; later ones move down. -/
def close (s : Counters) (place : Nat) : Counters :=
  match s.scopes[place]? with
  | some counter =>
    { s with levels := s.levels.modify counter Depth.leave, scopes := s.scopes.eraseIdx place }
  | none => s

/-- Closes every scope, the oldest first. -/
def closeAll (s : Counters) : Counters :=
  s.scopes.foldl (fun s _ => s.close 0) s

/-- How many scopes are open on the counter of a handle. -/
def alive (s : Counters) (handle : Nat) : Nat :=
  (s.handles[handle]?.map fun counter => s.scopes.count counter).getD 0

end Counters
end V30Probe
