import UtilityCss.FileTree.Changes
import UtilityCss.Proofs.PathSteps
import UtilityCss.Proofs.PlaceChanges

/-!
# Proper trees

Members of a directory are kept as a list, and not every list is a directory: its names have to be
names that a file system can give (`FileTree.IsMemberName`), and each has to come after the ones
before it. `Node.Proper` says so for a whole tree. It is what makes a tree have one form only: two
proper trees with the same entries are the same tree (`FileTree.eq_of_entryAt`). All operations keep
trees proper, since a name that a path ends in is checked before anything is put under it.
-/

namespace UtilityCss

/-- **A name that a file system can give** to a member of a directory. -/
structure FileTree.IsMemberName (name : String) : Prop extends Path.IsFileName name where
  nul : '\x00' ∉ name.toList
  size : name.utf8ByteSize ≤ FileTree.nameLimit

mutual

/-- **The directories of a tree are sorted**, and their members have names that they can have. -/
def Node.Proper : Node → Prop
  | .file _ => True
  | .directory members => members.Proper

/-- The members of a directory are sorted, and so are those below them. -/
def Members.Proper : Members → Prop
  | .nil => True
  | .cons name node rest =>
    FileTree.IsMemberName name ∧ (∀ other ∈ rest.names, name < other) ∧ node.Proper ∧ rest.Proper

end

open FileTree (IsMemberName)

/-! ### Deciding -/

instance (name : String) : Decidable (Path.IsFileName name) :=
  decidable_of_iff (name.toList ≠ [] ∧ '/' ∉ name.toList ∧ name.toList ≠ ['.'] ∧
      name.toList ≠ ['.', '.'])
    ⟨fun ⟨hne, hslash, hdot, hdots⟩ => ⟨hne, hslash, hdot, hdots⟩,
      fun h => ⟨h.ne_nil, h.slash, h.ne_dot, h.ne_dots⟩⟩

instance (name : String) : Decidable (IsMemberName name) :=
  decidable_of_iff (Path.IsFileName name ∧ '\x00' ∉ name.toList ∧
      name.utf8ByteSize ≤ FileTree.nameLimit)
    ⟨fun ⟨hname, hnul, hsize⟩ => ⟨hname, hnul, hsize⟩, fun h => ⟨h.toIsFileName, h.nul, h.size⟩⟩

mutual

def Node.decideProper : (node : Node) → Decidable node.Proper
  | .file _ => .isTrue trivial
  | .directory members => members.decideProper

def Members.decideProper : (ms : Members) → Decidable ms.Proper
  | .nil => .isTrue trivial
  | .cons name node rest =>
    have := node.decideProper
    have := rest.decideProper
    have := List.decidableBAll (fun other => name < other) rest.names
    inferInstanceAs (Decidable (IsMemberName name ∧ (∀ other ∈ rest.names, name < other) ∧
      node.Proper ∧ rest.Proper))

end

instance (node : Node) : Decidable node.Proper := node.decideProper

namespace Members

variable {name : String} {node : Node}

/-! ### Names of members -/

/-- A name with a member is among the names. -/
theorem mem_names_of_get? : ∀ {ms : Members}, ms.get? name = some node → name ∈ ms.names
  | nil, h => by cases h
  | cons n m rest, h => by
    rw [get?] at h
    split at h
    · next hn => exact hn ▸ List.mem_cons_self
    · exact List.mem_cons_of_mem _ (mem_names_of_get? h)

/-- Inserting a member brings in its name at most. -/
theorem mem_names_insert {other : String} :
    ∀ {ms : Members}, other ∈ (ms.insert name node).names → other = name ∨ other ∈ ms.names
  | nil, h => .inl (List.mem_singleton.mp h)
  | cons n m rest, h => by
    rw [insert] at h
    split at h
    · exact .inr h
    · split at h
      · exact List.mem_cons.mp h
      · rcases List.mem_cons.mp h with rfl | h
        · exact .inr List.mem_cons_self
        · exact (mem_names_insert h).imp_right (List.mem_cons_of_mem _)

/-- Erasing a member brings in no name. -/
theorem mem_names_erase {other : String} :
    ∀ {ms : Members}, other ∈ (ms.erase name).names → other ∈ ms.names
  | nil, h => h
  | cons n m rest, h => by
    rw [erase] at h
    split at h
    · exact List.mem_cons_of_mem _ (mem_names_erase h)
    · rcases List.mem_cons.mp h with rfl | h
      · exact List.mem_cons_self
      · exact List.mem_cons_of_mem _ (mem_names_erase h)

/-- Changing a member changes no name. -/
theorem names_modify (f : Node → Node) : ∀ ms : Members, (ms.modify name f).names = ms.names
  | nil => rfl
  | cons n m rest => by
    rw [modify]
    split
    · rfl
    · rw [names, names, names_modify f rest]

/-! ### Members of a proper directory -/

/-- A member of a proper directory has a name of a file and is proper itself. -/
theorem Proper.of_get? : ∀ {ms : Members}, ms.Proper → ms.get? name = some node →
    IsMemberName name ∧ node.Proper
  | nil, _, h => by cases h
  | cons n m rest, hms, h => by
    obtain ⟨hn, -, hm, hrest⟩ := hms
    rw [get?] at h
    split at h
    · next heq =>
      cases h
      exact ⟨heq ▸ hn, hm⟩
    · exact hrest.of_get? h

/-- The name of the first member is not among the others. -/
theorem Proper.get?_rest {n : String} {m : Node} {rest : Members} (h : (cons n m rest).Proper) :
    rest.get? n = none := by
  obtain ⟨-, hlt, -, -⟩ := h
  cases hget : rest.get? n with
  | none => rfl
  | some found => exact absurd (hlt n (mem_names_of_get? hget)) (String.lt_irrefl n)

/-- A member is put where its name belongs, so the names stay sorted. -/
theorem Proper.insert (hname : IsMemberName name) (hnode : node.Proper) :
    ∀ {ms : Members}, ms.Proper → (ms.insert name node).Proper
  | nil, _ => by
    refine ⟨hname, ?_, hnode, trivial⟩
    intro other hother
    cases hother
  | cons n m rest, hms => by
    obtain ⟨hn, hlt, hm, hrest⟩ := hms
    rw [Members.insert]
    split
    · -- There is a member of this name, and it is replaced.
      exact ⟨hn, hlt, hnode, hrest⟩
    · next hne =>
      split
      · next hbefore =>
        -- The new member comes first, before one whose name is greater.
        refine ⟨hname, ?_, hnode, hn, hlt, hm, hrest⟩
        intro other hother
        rcases List.mem_cons.mp hother with rfl | hother
        · exact hbefore
        · exact String.lt_trans hbefore (hlt other hother)
      · next hbefore =>
        refine ⟨hn, ?_, hm, hrest.insert hname hnode⟩
        intro other hother
        rcases mem_names_insert hother with rfl | hother
        · -- The new name is neither this one nor before it.
          by_contra hafter
          exact hne (String.le_antisymm (String.not_lt.mp hbefore) (String.not_lt.mp hafter))
        · exact hlt other hother

/-- A sorted list stays sorted when members are taken out. -/
theorem Proper.erase : ∀ {ms : Members}, ms.Proper → (ms.erase name).Proper
  | nil, h => h
  | cons n m rest, hms => by
    obtain ⟨hn, hlt, hm, hrest⟩ := hms
    rw [Members.erase]
    split
    · exact hrest.erase
    · exact ⟨hn, fun other hother => hlt other (mem_names_erase hother), hm, hrest.erase⟩

/-- A change of a member keeps the names as they are, so only the member matters. -/
theorem Proper.modify {f : Node → Node} (hf : ∀ m : Node, m.Proper → (f m).Proper) :
    ∀ {ms : Members}, ms.Proper → (ms.modify name f).Proper
  | nil, h => h
  | cons n m rest, hms => by
    obtain ⟨hn, hlt, hm, hrest⟩ := hms
    rw [Members.modify]
    split
    · exact ⟨hn, hlt, hf m hm, hrest⟩
    · refine ⟨hn, ?_, hm, hrest.modify hf⟩
      rw [names_modify]
      exact hlt

end Members

namespace Node

/-- All names on the way to a node of a proper tree are names of members, and the node is proper. -/
theorem Proper.of_get? {node below : Node} {place : List String} (h : node.Proper)
    (hget : node.get? place = some below) :
    (∀ name ∈ place, IsMemberName name) ∧ below.Proper := by
  induction place generalizing node with
  | nil =>
    cases hget
    exact ⟨List.forall_mem_nil _, h⟩
  | cons name place ih =>
    cases node with
    | file content => cases hget
    | directory members =>
      -- The first name is that of a member, and the others lead on from there.
      obtain ⟨child, hchild, hbelow⟩ := Option.bind_eq_some_iff.mp hget
      obtain ⟨hname, hproper⟩ := Members.Proper.of_get? h hchild
      obtain ⟨hplace, hresult⟩ := ih hproper hbelow
      exact ⟨List.forall_mem_cons.mpr ⟨hname, hplace⟩, hresult⟩

/-- A change of the members at one place keeps a tree proper if it keeps each directory proper. -/
theorem Proper.modifyMembers {f : Members → Members}
    (hf : ∀ ms : Members, ms.Proper → (f ms).Proper) {node : Node} (h : node.Proper)
    (place : List String) : (node.modifyMembers f place).Proper := by
  induction place generalizing node with
  | nil =>
    cases node with
    | file content => trivial
    | directory members => exact hf members h
  | cons name place ih =>
    cases node with
    | file content => trivial
    | directory members => exact Members.Proper.modify (fun m hm => ih hm) h

/-! ### One form only -/

/-- A directory has an entry under a name just if it has a member of that name. -/
theorem isSome_entryAt_singleton {ms : Members} {name : String} :
    ((directory ms).entryAt [name]).isSome = (ms.get? name).isSome := by
  rw [entryAt_cons]
  cases ms.get? name <;> rfl

/-- The first names of two directories with the same names are the same: neither can be among the
later ones of the other. -/
theorem first_name_eq {n n' : String} {m m' : Node} {rest rest' : Members}
    (h : (Members.cons n m rest).Proper) (h' : (Members.cons n' m' rest').Proper)
    (heq : ∀ name, ((Members.cons n m rest).get? name).isSome
      = ((Members.cons n' m' rest').get? name).isSome) : n = n' := by
  -- If the names differ, each of them is among the later names of the other directory.
  have hlater : ∀ {a b : String} {c d : Node} {r s : Members}, (Members.cons b d s).Proper →
      ((Members.cons a c r).get? a).isSome = ((Members.cons b d s).get? a).isSome → a ≠ b →
      b < a := by
    intro a b c d r s hproper hsome hne
    rw [Members.get?, if_pos rfl, Members.get?, if_neg (Ne.symm hne)] at hsome
    obtain ⟨found, hfound⟩ := Option.isSome_iff_exists.mp hsome.symm
    exact hproper.2.1 a (Members.mem_names_of_get? hfound)
  by_contra hne
  exact String.lt_irrefl n
    (String.lt_trans (hlater h (heq n').symm (Ne.symm hne)) (hlater h' (heq n) hne))

mutual

/-- **Proper trees with the same entries are equal.** -/
theorem ext_entryAt : ∀ {node node' : Node}, node.Proper → node'.Proper →
    (∀ place, node.entryAt place = node'.entryAt place) → node = node'
  | file content, node', _, _, heq => by
    have hroot := heq []
    cases node' with
    | file content' =>
      cases hroot
      rfl
    | directory members => cases hroot
  | directory members, node', h, h', heq => by
    have hroot := heq []
    cases node' with
    | file content' => cases hroot
    | directory members' => exact congrArg directory (ext_members h h' heq)

/-- The same for the members of a directory. They are compared one by one from the front, since both
lists are sorted. -/
theorem ext_members : ∀ {ms ms' : Members}, ms.Proper → ms'.Proper →
    (∀ place, (directory ms).entryAt place = (directory ms').entryAt place) → ms = ms'
  | .nil, .nil, _, _, _ => rfl
  | .nil, .cons n' m' rest', _, _, heq => by
    have hfirst := congrArg Option.isSome (heq [n'])
    rw [isSome_entryAt_singleton, isSome_entryAt_singleton, Members.get?, Members.get?,
      if_pos rfl] at hfirst
    cases hfirst
  | .cons n m rest, .nil, _, _, heq => by
    have hfirst := congrArg Option.isSome (heq [n])
    rw [isSome_entryAt_singleton, isSome_entryAt_singleton, Members.get?, Members.get?,
      if_pos rfl] at hfirst
    cases hfirst
  | .cons n m rest, .cons n' m' rest', h, h', heq => by
    have hnames : ∀ name, ((Members.cons n m rest).get? name).isSome
        = ((Members.cons n' m' rest').get? name).isSome := by
      intro name
      rw [← isSome_entryAt_singleton, heq, isSome_entryAt_singleton]
    obtain rfl := first_name_eq h h' hnames
    -- Below the common first name the entries are those of the first members.
    have hfirst : m = m' := by
      refine ext_entryAt h.2.2.1 h'.2.2.1 fun place => ?_
      have hplace := heq (n :: place)
      rw [entryAt_cons, entryAt_cons, Members.get?, Members.get?, if_pos rfl, if_pos rfl] at hplace
      exact hplace
    -- The entries of the rest are those of the whole directory, but for the first name.
    have hrest : rest = rest' := by
      refine ext_members h.2.2.2 h'.2.2.2 fun place => ?_
      cases place with
      | nil => rfl
      | cons name place =>
        rw [entryAt_cons, entryAt_cons]
        by_cases hname : n = name
        · -- The rest of either directory has nothing with the first name.
          subst hname
          rw [h.get?_rest, h'.get?_rest]
        · have hplace := heq (name :: place)
          rw [entryAt_cons, entryAt_cons, Members.get?, Members.get?, if_neg hname,
            if_neg hname] at hplace
          exact hplace
    rw [hfirst, hrest]

end

end Node

namespace FileTree

variable {t t' : FileTree} {p : Path}

/-- **A proper tree is determined by its entries** and by where one stands in it. -/
theorem eq_of_entryAt (h : t.root.Proper) (h' : t'.root.Proper) (hhere : t'.here = t.here)
    (heq : ∀ place, t'.entryAt place = t.entryAt place) : t' = t := by
  cases t with
  | mk root here =>
    cases t' with
    | mk root' here' =>
      obtain rfl : root' = root := Node.ext_entryAt h' h heq
      obtain rfl : here' = here := hhere
      rfl

/-- What is found in a proper tree is proper. -/
theorem proper_of_find (ht : t.root.Proper) {node : Node} (h : t.find p = .ok node) :
    node.Proper := by
  obtain ⟨top, -, hget⟩ := find_eq_ok_iff.mp h
  exact (ht.of_get? hget).2

/-! ### Operations keep trees proper -/

/-- A text is taken as a path if it is not empty and holds no NUL. -/
theorem checkText_eq_ok_iff :
    checkText p = .ok () ↔ '\x00' ∉ p.text.toList ∧ p.text ≠ "" := by
  unfold checkText
  split
  · next hnul =>
    exact ⟨fun h => (nomatch h), fun h => absurd (List.contains_iff_mem.mp hnul) h.1⟩
  · next hnul =>
    rw [List.contains_iff_mem] at hnul
    split
    · next hempty =>
      exact ⟨fun h => (nomatch h), fun h => absurd (String.isEmpty_iff.mp hempty) h.2⟩
    · next hempty =>
      rw [String.isEmpty_iff] at hempty
      exact ⟨fun _ => ⟨hnul, hempty⟩, fun _ => rfl⟩

/-- **A path can be handed over** if it is not empty, holds no NUL and is not too long. -/
theorem checkPath_eq_ok_iff :
    checkPath p = .ok () ↔ checkText p = .ok () ∧ p.text.utf8ByteSize ≤ pathLimit := by
  unfold checkPath
  rw [bind_eq_ok_iff]
  constructor
  · rintro ⟨⟨⟩, hgood, h⟩
    split at h
    · cases h
    · next hshort => exact ⟨hgood, Nat.not_lt.mp hshort⟩
  · rintro ⟨hgood, hsize⟩
    exact ⟨(), hgood, if_neg (Nat.not_lt.mpr hsize)⟩

/-- Going down by names of members makes no text bad. -/
theorem checkText_below {p : Path} (hp : checkText p = .ok ()) {names : List String}
    (hnames : ∀ name ∈ names, IsMemberName name) : checkText (p.below names) = .ok () := by
  obtain ⟨hnul, hne⟩ := checkText_eq_ok_iff.mp hp
  refine checkText_eq_ok_iff.mpr ⟨?_, ?_⟩
  · intro hmem
    -- A character of the path is one of the path above, a slash, or one of the names.
    rcases Path.mem_text_below hmem with h | h | ⟨name, hname, h⟩
    · exact hnul h
    · exact absurd h (by decide)
    · exact (hnames name hname).nul h
  · exact Path.text_below_ne hne fun name hname => (hnames name hname).toIsFileName

/-- Of a path that goes down from one that is good, only the length can be wrong. -/
theorem checkPath_below {p : Path} (hp : checkPath p = .ok ()) {names : List String}
    (hnames : ∀ name ∈ names, IsMemberName name) :
    checkPath (p.below names) = .ok () ↔ (p.below names).text.utf8ByteSize ≤ pathLimit := by
  have htext := checkText_below (checkPath_eq_ok_iff.mp hp).1 hnames
  rw [checkPath_eq_ok_iff]
  exact and_iff_right htext

/-- A name can be looked up if it is not too long. -/
theorem checkName_eq_ok_iff {name : String} :
    checkName name = .ok () ↔ name.utf8ByteSize ≤ nameLimit := by
  unfold checkName
  split
  · next hlong => exact ⟨fun h => (nomatch h), fun h => absurd h (Nat.not_le.mpr hlong)⟩
  · next hshort => exact ⟨fun _ => Nat.not_lt.mp hshort, fun _ => rfl⟩

/-- **The name of a target is one that a member can have**: it comes from a path that was checked,
and its length was checked on its own. -/
theorem isMemberName_of_target {directory : List String} {name : String} {slash : Bool}
    (h : t.target p = .ok (.member directory name slash)) (hname : checkName name = .ok ()) :
    IsMemberName name := by
  obtain ⟨hpath, hlast, -⟩ := target_eq_member_iff.mp h
  have hmem : .down name ∈ p.steps := List.mem_of_getLast? hlast
  refine ⟨Path.isFileName_of_mem_steps hmem, ?_, checkName_eq_ok_iff.mp hname⟩
  intro hnul
  have htext := checkText_eq_ok_iff.mp (checkPath_eq_ok_iff.mp hpath).1
  exact htext.1 (Path.mem_text_of_mem_steps hmem hnul)

/-- A path that leads to a place is not empty. -/
theorem text_ne_of_locate {place : List String} (h : t.locate p = .ok place) : p.text ≠ "" := by
  obtain ⟨⟨⟩, hpath, -⟩ := bind_eq_ok_iff.mp h
  exact (checkText_eq_ok_iff.mp (checkPath_eq_ok_iff.mp hpath).1).2

/-- A path at which something is found is not empty. -/
theorem text_ne_of_find {node : Node} (h : t.find p = .ok node) : p.text ≠ "" := by
  obtain ⟨top, htop, -⟩ := find_eq_ok_iff.mp h
  exact text_ne_of_locate htop

/-- Putting in a proper node under a good name keeps a tree proper. -/
theorem proper_put (h : t.root.Proper) {name : String} (hname : IsMemberName name) (node : Node)
    (hnode : node.Proper) (directory : List String) : (t.put directory name node).root.Proper :=
  h.modifyMembers (fun _ hms => hms.insert hname hnode) directory

/-- Writing a file keeps a tree proper. -/
theorem proper_of_write {content : ByteArray} (h : t.root.Proper)
    (hwrite : t.write p content = .ok t') : t'.root.Proper := by
  obtain ⟨directory, name, hnames, -, rfl⟩ := write_eq_ok_iff.mp hwrite
  exact proper_put h (isMemberName_of_target hnames.target hnames.checkName) (.file content) trivial
    directory

/-- Removing a file keeps a tree proper. -/
theorem proper_of_remove (h : t.root.Proper) (hremove : t.remove p = .ok t') : t'.root.Proper := by
  obtain ⟨directory, name, content, -, -, rfl⟩ := remove_eq_ok_iff.mp hremove
  exact h.modifyMembers (fun _ hms => hms.erase) directory

/-- Making a directory keeps a tree proper. -/
theorem proper_of_makeDirectory (h : t.root.Proper) (hmake : t.makeDirectory p = .ok t') :
    t'.root.Proper := by
  obtain ⟨directory, name, slash, htarget, hname, -, rfl⟩ := makeDirectory_eq_ok_iff.mp hmake
  exact proper_put h (isMemberName_of_target htarget hname) (.directory .nil) trivial directory

/-! ### Ways down -/

/-- What has something below it is a directory. -/
theorem entryAt_of_get?_concat {place : List String} {name : String} {node : Node}
    (h : t.root.get? (place ++ [name]) = some node) : t.entryAt place = some .directory := by
  rw [Node.get?_append] at h
  obtain ⟨around, haround, hnode⟩ := Option.bind_eq_some_iff.mp h
  cases around with
  | file content => cases hnode
  | directory members =>
    rw [entryAt_eq_map, haround]
    rfl

/-- What is around an entry is there too. -/
theorem isSome_entryAt_of_append {place rest : List String}
    (h : (t.entryAt (place ++ rest)).isSome = true) : (t.entryAt place).isSome = true := by
  rw [entryAt_eq_map, Option.isSome_map] at h ⊢
  rw [Node.get?_append, Option.isSome_bind] at h
  exact Option.isSome_of_any h

/-- One can go down by names to everything that is there. -/
theorem follow_down (ht : t.root.Proper) {place names : List String} {node : Node}
    (h : t.root.get? (place ++ names) = some node) :
    t.follow place (names.map .down) = .ok (place ++ names) := by
  induction names generalizing place with
  | nil =>
    rw [List.append_nil]
    rfl
  | cons name names ih =>
    rw [List.append_cons] at h ⊢
    obtain ⟨child, hchild, -⟩ := Option.bind_eq_some_iff.mp (Node.get?_append .. ▸ h)
    -- The name is not too long to be looked up, since it is the name of a member.
    have hname : IsMemberName name :=
      (ht.of_get? hchild).1 name (List.mem_append_right _ List.mem_cons_self)
    have hsome : (t.entryAt (place ++ [name])).isSome = true := by
      rw [entryAt_eq_map, hchild]
      rfl
    have henter : t.enter place name = .ok (place ++ [name]) :=
      enter_eq_ok_iff.mpr ⟨entryAt_of_get?_concat hchild, checkName_eq_ok_iff.mpr hname.size, hsome,
        rfl⟩
    -- One step down, and the rest of the way from there.
    exact bind_eq_ok_iff.mpr ⟨_, henter, ih h⟩

/-- **A path down through names leads to what is there.** -/
theorem destination_below (ht : t.root.Proper) {top names : List String} {node : Node}
    (htop : t.locate p = .ok top) (h : t.root.get? (top ++ names) = some node) :
    t.destination (p.below names) = .ok (top ++ names) := by
  obtain ⟨⟨⟩, -, hdestination⟩ := bind_eq_ok_iff.mp htop
  cases hnames : names with
  | nil => rwa [List.append_nil]
  | cons name rest =>
    rw [← hnames]
    -- Names of members are no dots and hold no slash, so each of them is one step of the path.
    have hfile : ∀ other ∈ names, Path.IsFileName other := fun other hother =>
      ((ht.of_get? h).1 other (List.mem_append_right _ hother)).toIsFileName
    have hne : names ≠ [] := hnames ▸ List.cons_ne_nil name rest
    refine destination_eq_ok_iff.mpr ⟨?_, ?_⟩
    · rw [Path.steps_below (text_ne_of_locate htop) hfile, follow_append]
      obtain ⟨hfollow, -⟩ := destination_eq_ok_iff.mp hdestination
      exact bind_eq_ok_iff.mpr ⟨top, hfollow, follow_down ht h⟩
    · -- The last piece is a name, so the path may lead to a file.
      obtain ⟨base, -, -, hbelow⟩ := Path.exists_pieces_below (text_ne_of_locate htop)
      intro hslash
      rw [leadsToDirectory, hbelow names hne hfile, ← List.dropLast_concat_getLast hne,
        List.map_append, List.map_singleton, ← List.append_assoc, List.getLast?_concat] at hslash
      exact absurd hslash Bool.false_ne_true

/-- A path to a node below a directory is resolved, however long it is. -/
theorem resolve_below (ht : t.root.Proper) {top names : List String} {node : Node}
    (htop : t.locate p = .ok top) (h : t.root.get? (top ++ names) = some node) :
    t.resolve (p.below names) = .ok (top ++ names) := by
  obtain ⟨⟨⟩, hpath, -⟩ := bind_eq_ok_iff.mp htop
  have hnames : ∀ name ∈ names, IsMemberName name := fun name hname =>
    (ht.of_get? h).1 name (List.mem_append_right _ hname)
  exact bind_eq_ok_iff.mpr ⟨(), checkText_below (checkPath_eq_ok_iff.mp hpath).1 hnames,
    destination_below ht htop h⟩

/-- What is found by going down is what is there, unless the path has become too long. -/
theorem find_below (ht : t.root.Proper) {top names : List String} {node : Node}
    (htop : t.locate p = .ok top) (h : t.root.get? (top ++ names) = some node) :
    t.find (p.below names) = checkPath (p.below names) >>= fun _ => .ok node := by
  unfold find locate
  rw [destination_below ht htop h]
  cases checkPath (p.below names) with
  | error e => rfl
  | ok =>
    dsimp only [bind, Except.bind]
    rw [h]
    rfl

end FileTree

end UtilityCss
