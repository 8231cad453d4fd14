/-!
# Class trees

The classes of a module, nested. A tree grows by declarations that are put at paths; the classes on
the way to a path are made as needed and may get their own declaration later. A path holds one
declaration: another one at the same path is refused.

`ClassTree.events` is the order in which the classes are written: each class is opened, then its
inner classes are written in full, then it is closed.
-/
namespace ProtoModels

/-- A class with its inner classes (`Node`). A class without a declaration is only a scope. -/
structure ClassNode (α : Type) where
  name : String
  decl : Option α := none
  children : List (ClassNode α) := []
deriving Inhabited

namespace ClassNode

variable {α : Type}

/-- The inner class with a name (`child`). -/
def child? (n : ClassNode α) (name : String) : Option (ClassNode α) :=
  n.children.find? (·.name == name)

/-- The class at a path below a class (`find`). -/
def find? : ClassNode α → List String → Option (ClassNode α)
  | n, [] => some n
  | n, name :: path => (n.child? name).bind (find? · path)

/-- Replaces the class with a name by what `f` makes of it; a class that is missing is added at the
end (`push_child`). -/
def upsert {ε : Type} (name : String) (f : ClassNode α → Except ε (ClassNode α)) :
    List (ClassNode α) → Except ε (List (ClassNode α))
  | [] => (f { name }).map ([·])
  | c :: cs => if c.name = name then (f c).map (· :: cs) else (upsert name f cs).map (c :: ·)

/-- Puts a declaration at a path below a class, as the loop of `insert` does. The declaration that
is in the way is the error. -/
def insert [DecidableEq α] (decl : α) : List String → ClassNode α → Except α (ClassNode α)
  | [], n =>
    match n.decl with
    | none => .ok { n with decl := some decl }
    | some there => if there = decl then .ok n else .error there
  | name :: path, n =>
    (upsert name (insert decl path) n.children).map fun children => { n with children }

mutual
/-- The number of classes below a class. -/
def size : ClassNode α → Nat
  | ⟨_, _, children⟩ => sizeOfList children

/-- The number of classes in a list, with all below them. -/
def sizeOfList : List (ClassNode α) → Nat
  | [] => 0
  | c :: cs => 1 + c.size + sizeOfList cs
end

end ClassNode

/-- The opening or the closing of a class `depth` classes deep: a call of a `NodeEmitter`. -/
inductive ClassEvent (α : Type) where
  | header (node : ClassNode α) (depth : Nat)
  | body (node : ClassNode α) (depth : Nat)

namespace ClassNode

variable {α : Type}

mutual
/-- A class and all in it (`emit_node`): its inner classes stand between its header and its body. -/
def events (depth : Nat) : ClassNode α → List (ClassEvent α)
  | ⟨name, decl, children⟩ =>
    .header ⟨name, decl, children⟩ depth ::
      (eventsOfList (depth + 1) children ++ [.body ⟨name, decl, children⟩ depth])

def eventsOfList (depth : Nat) : List (ClassNode α) → List (ClassEvent α)
  | [] => []
  | c :: cs => c.events depth ++ eventsOfList depth cs
end

end ClassNode

/-- The classes of a module below a root that is itself no class (`NamespaceTree`). `completed`
holds the top level paths in the order in which they received their declarations. -/
structure ClassTree (α : Type) where
  root : ClassNode α := { name := "" }
  completed : List (List String) := []
deriving Inhabited

namespace ClassTree

variable {α : Type}

def empty : ClassTree α := {}

/-- The class at a path (`find`); the root is at the empty path. -/
def find? (t : ClassTree α) (path : List String) : Option (ClassNode α) := t.root.find? path

/-- How deep the class at a path lies. The root and the top level are at depth zero. -/
def depthOf (path : List String) : Nat := path.length - 1

/-- The number of classes (`len`). -/
def size (t : ClassTree α) : Nat := t.root.size

/-- Puts a declaration at a path (`insert`). A declaration that is there already stays, and another
one in its place is the error. -/
def insert [DecidableEq α] (t : ClassTree α) (path : List String) (decl : α) :
    Except α (ClassTree α) :=
  (t.root.insert decl path).map fun root =>
    let isNew := ((t.find? path).bind (·.decl)).isNone
    { root
      completed :=
        if isNew && depthOf path == 0 then t.completed ++ [path] else t.completed }

/-- The paths of the top level classes in the order in which they are written (`top_level`): first
the declared ones, as they were completed, then the scopes, as they were made. -/
def topLevelPaths (t : ClassTree α) : List (List String) :=
  t.completed ++ (t.root.children.filter (·.decl.isNone)).map ([·.name])

def topLevel (t : ClassTree α) : List (ClassNode α) := t.topLevelPaths.filterMap t.find?

/-- The headers and bodies of all classes, in the order in which `emit` calls for them. A root that
has received a declaration is written like a class whose inner classes lie at depth zero. -/
def events (t : ClassTree α) : List (ClassEvent α) :=
  t.topLevelPaths.flatMap fun path =>
    match path, t.find? path with
    | _, none => []
    | [], some n => .header n 0 :: (ClassNode.eventsOfList 0 n.children ++ [.body n 0])
    | _ :: _, some n => n.events 0

/-- Works through the headers and bodies in order, and stops at the first failure (`emit`). -/
def foldEvents {ε σ : Type} (t : ClassTree α) (step : σ → ClassEvent α → Except ε σ) (start : σ) :
    Except ε σ :=
  t.events.foldlM step start

end ClassTree
end ProtoModels
