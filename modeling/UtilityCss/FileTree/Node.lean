/-!
# Files and directories

A file is its bytes and a directory is its members by name. Members are kept in increasing order of
their names, so a tree has one form only and is walked in order. The order of names is that of their
characters, which is also the order of their bytes.
-/

namespace UtilityCss

mutual

/-- A file or a directory. -/
inductive Node where
  /-- A file with its content. -/
  | file (content : ByteArray)
  /-- A directory with its members. -/
  | directory (members : Members)

/-- The members of a directory. -/
inductive Members where
  /-- No more members. -/
  | nil
  /-- A member with its name, and the members after it. -/
  | cons (name : String) (node : Node) (rest : Members)

end

instance : Inhabited Members := ⟨.nil⟩

instance : Inhabited Node := ⟨.directory .nil⟩

namespace Members

/-- The member with a name. -/
def get? (name : String) : Members → Option Node
  | nil => none
  | cons n node rest => if n = name then some node else rest.get? name

/-- Add a member, or put it in place of the one with its name. -/
def insert (name : String) (node : Node) : Members → Members
  | nil => cons name node nil
  | cons n m rest =>
    if n = name then cons n node rest
    else if name < n then cons name node (cons n m rest)
    else cons n m (rest.insert name node)

/-- Change the member with a name. -/
def modify (name : String) (f : Node → Node) : Members → Members
  | nil => nil
  | cons n m rest => if n = name then cons n (f m) rest else cons n m (rest.modify name f)

/-- Remove the member with a name. -/
def erase (name : String) : Members → Members
  | nil => nil
  | cons n m rest => if n = name then rest.erase name else cons n m (rest.erase name)

@[simp] theorem get?_insert_self (name : String) (node : Node) :
    ∀ ms : Members, (ms.insert name node).get? name = some node
  | nil => by simp [insert, get?]
  | cons n m rest => by
    by_cases h : n = name
    · simp [insert, get?, h]
    · by_cases hlt : name < n
      · simp [insert, get?, h, hlt]
      · simp [insert, get?, h, hlt, get?_insert_self name node rest]

@[simp] theorem get?_erase_self (name : String) :
    ∀ ms : Members, (ms.erase name).get? name = none
  | nil => rfl
  | cons n m rest => by
    by_cases h : n = name
    · simp [erase, h, get?_erase_self name rest]
    · simp [erase, get?, h, get?_erase_self name rest]

end Members

namespace Node

/-- Whether a node is a directory. -/
def isDirectory : Node → Bool
  | file _ => false
  | directory _ => true

/-- **The node at a place** below a node. -/
def get? : Node → List String → Option Node
  | node, [] => some node
  | file _, _ :: _ => none
  | directory members, name :: place => (members.get? name).bind fun node => node.get? place

/-- **Change the node at a place** below a node; nothing changes if there is none. -/
def modify (f : Node → Node) : List String → Node → Node
  | [], node => f node
  | _ :: _, file content => file content
  | name :: place, directory members => directory (members.modify name (modify f place))

/-- Change the members of the directory at a place. -/
def modifyMembers (f : Members → Members) : List String → Node → Node :=
  modify fun
    | file content => file content
    | directory members => directory (f members)

end Node

end UtilityCss
