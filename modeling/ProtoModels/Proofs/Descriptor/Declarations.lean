import Mathlib.Data.List.Basic
import ProtoModels.Descriptor.Basic
import ProtoModels.Names
/-!
# The declarations of a file

What a file's descriptor declares, at any depth, each declaration at its path (`File.Declares`). A path
has two numbers for each step: the kind of what is declared there, and its position among those of its
kind. Declarations are registered in the order of their paths (`PathBefore`): a message before all that
is declared in it, then kinds by descending number, which are enums, messages and fields, and those of a
kind by position. `File.declarations` lists what a file declares in this order.
-/
namespace ProtoModels.Descriptor

inductive Declaration where
  | message (d : Message)
  | enum (d : Enum)
  | field (d : Field)

namespace Declaration

def name : Declaration → String
  | message d => d.name
  | enum d => d.name
  | field d => d.name

/-- Whether fields can refer to what is declared. -/
def isType : Declaration → Bool
  | field _ => false
  | _ => true

end Declaration

/-- The descriptor of a file has a declaration at a path, in what has the full name `outer`. -/
inductive File.Declares (file : File) : List Int → String → Declaration → Prop where
  | topEnum {i : Nat} {d : Enum} : file.enums[i]? = some d →
      Declares file [5, (i : Int)] file.package (.enum d)
  | topMessage {i : Nat} {d : Message} : file.messages[i]? = some d →
      Declares file [4, (i : Int)] file.package (.message d)
  | enum {path : List Int} {outer : String} {m : Message} {i : Nat} {d : Enum} :
      Declares file path outer (.message m) → m.enums[i]? = some d →
      Declares file (path ++ [4, (i : Int)]) (qualify outer m.name) (.enum d)
  | message {path : List Int} {outer : String} {m : Message} {i : Nat} {d : Message} :
      Declares file path outer (.message m) → m.nested[i]? = some d →
      Declares file (path ++ [3, (i : Int)]) (qualify outer m.name) (.message d)
  | field {path : List Int} {outer : String} {m : Message} {i : Nat} {d : Field} :
      Declares file path outer (.message m) → m.fields[i]? = some d →
      Declares file (path ++ [2, (i : Int)]) (qualify outer m.name) (.field d)

/-- What is at the one path is registered before what is at the other. -/
def PathBefore : List Int → List Int → Prop
  | [], _ :: _ => True
  | kind :: i :: path, kind' :: i' :: path' =>
    kind' < kind ∨ kind = kind' ∧ (i < i' ∨ i = i' ∧ PathBefore path path')
  | _, _ => False

/-! ## Listing -/

/-- A declaration with its path and the full name of what it stands in. -/
structure Declared where
  path : List Int
  outer : String
  decl : Declaration

namespace Declared

def fullName (x : Declared) : String := qualify x.outer x.decl.name

/-- A declaration of a kind and at a position behind a path, or inside of one. -/
def Below (path : List Int) (kind : Int) (i : Nat) (x : Declared) : Prop :=
  ∃ rest, x.path = path ++ kind :: (i : Int) :: rest

def Before (x y : Declared) : Prop := PathBefore x.path y.path

end Declared

mutual
/-- A message at a path and all that is declared in it. -/
def Message.declarations (outer : String) (path : List Int) : Message → List Declared
  | ⟨name, fields, extensions, nested, enums, oneofs, ranges, reserved, mapEntry, options⟩ =>
    let inner := qualify outer name
    ⟨path, outer, .message
      ⟨name, fields, extensions, nested, enums, oneofs, ranges, reserved, mapEntry, options⟩⟩ ::
    (enums.mapIdx (fun i d => ⟨path ++ [4, (i : Int)], inner, .enum d⟩) ++
      Message.declarationsFrom inner (path ++ [3]) 0 nested ++
      fields.mapIdx fun i d => ⟨path ++ [2, (i : Int)], inner, .field d⟩)

/-- The messages at the positions from `i` on behind a path. -/
def Message.declarationsFrom (outer : String) (path : List Int) (i : Nat) : List Message → List Declared
  | [] => []
  | d :: ds =>
    d.declarations outer (path ++ [(i : Int)]) ++ Message.declarationsFrom outer path (i + 1) ds
end

/-- All that a file declares, in the order of registration. -/
def File.declarations (file : File) : List Declared :=
  file.enums.mapIdx (fun i d => ⟨[5, (i : Int)], file.package, .enum d⟩) ++
    Message.declarationsFrom file.package [4] 0 file.messages

theorem Message.declarations_eq (outer : String) (path : List Int) (d : Message) :
    d.declarations outer path = ⟨path, outer, .message d⟩ ::
      (d.enums.mapIdx (fun i e => ⟨path ++ [4, (i : Int)], qualify outer d.name, .enum e⟩) ++
        declarationsFrom (qualify outer d.name) (path ++ [3]) 0 d.nested ++
        d.fields.mapIdx fun i f => ⟨path ++ [2, (i : Int)], qualify outer d.name, .field f⟩) := by
  cases d; rfl

/-! ### Membership -/

theorem mem_mapIdx_iff {α β : Type} {f : Nat → α → β} {l : List α} {b : β} :
    b ∈ l.mapIdx f ↔ ∃ i a, l[i]? = some a ∧ b = f i a := by
  rw [List.mem_mapIdx]
  constructor
  · rintro ⟨i, hi, rfl⟩
    exact ⟨i, l[i], List.getElem?_eq_getElem hi, rfl⟩
  · rintro ⟨i, a, ha, rfl⟩
    obtain ⟨hi, rfl⟩ := List.getElem?_eq_some_iff.1 ha
    exact ⟨i, hi, rfl⟩

namespace Message

theorem mem_declarationsFrom_iff {outer : String} {path : List Int} {ds : List Message} {i : Nat}
    {x : Declared} : x ∈ declarationsFrom outer path i ds ↔
      ∃ (j : Nat) (d : Message), ds[j]? = some d ∧
        x ∈ d.declarations outer (path ++ [((i + j : Nat) : Int)]) := by
  induction ds generalizing i with
  | nil => simp [declarationsFrom]
  | cons d ds ih =>
    rw [declarationsFrom, List.mem_append, ih]
    constructor
    · rintro (hx | ⟨j, d', hd', hx⟩)
      · exact ⟨0, d, rfl, hx⟩
      · exact ⟨j + 1, d', hd', by rwa [Nat.add_right_comm] at hx⟩
    · rintro ⟨j, d', hd', hx⟩
      cases j with
      | zero =>
        cases hd'
        exact Or.inl hx
      | succ j => exact Or.inr ⟨j, d', hd', by rwa [Nat.add_right_comm]⟩

theorem mem_declarations_iff {outer : String} {path : List Int} {d : Message} {x : Declared} :
    x ∈ d.declarations outer path ↔ x = ⟨path, outer, .message d⟩ ∨
      (∃ (i : Nat) (e : Enum), d.enums[i]? = some e ∧
        x = ⟨path ++ [4, (i : Int)], qualify outer d.name, .enum e⟩) ∨
      (∃ (i : Nat) (m : Message), d.nested[i]? = some m ∧
        x ∈ m.declarations (qualify outer d.name) (path ++ [3, (i : Int)])) ∨
      ∃ (i : Nat) (f : Field), d.fields[i]? = some f ∧
        x = ⟨path ++ [2, (i : Int)], qualify outer d.name, .field f⟩ := by
  rw [declarations_eq]
  simp only [List.mem_cons, List.mem_append, mem_mapIdx_iff, mem_declarationsFrom_iff,
    List.append_assoc, Nat.zero_add, List.cons_append, List.nil_append]

theorem self_mem_declarations (outer : String) (path : List Int) (d : Message) :
    ⟨path, outer, .message d⟩ ∈ d.declarations outer path :=
  mem_declarations_iff.2 (Or.inl rfl)

/-- What a listed message declares is listed as well. -/
theorem declarations_subset : ∀ (d : Message) {outer : String} {path : List Int} {x : Declared}
    {m : Message}, x ∈ d.declarations outer path → x.decl = .message m →
      m.declarations x.outer x.path ⊆ d.declarations outer path
  | ⟨name, fields, extensions, nested, enums, oneofs, ranges, reserved, mapEntry, options⟩, outer, path,
      x, m, hx, hm => by
    rcases mem_declarations_iff.1 hx with rfl | ⟨i, e, _, rfl⟩ | ⟨i, d', hd', hx'⟩ | ⟨i, f, _, rfl⟩
    case inl =>
      cases hm
      exact List.Subset.refl _
    case inr.inl => cases hm
    case inr.inr.inl =>
      have hmem : d' ∈ nested := List.mem_of_getElem? hd'
      intro y hy
      refine mem_declarations_iff.2 (Or.inr (Or.inr (Or.inl ⟨i, d', hd', ?_⟩)))
      exact declarations_subset d' hx' hm hy
    case inr.inr.inr => cases hm

/-- What is listed for a declared message is declared. -/
theorem declares_of_mem {file : File} : ∀ (d : Message) {outer : String} {path : List Int},
    file.Declares path outer (.message d) → ∀ x ∈ d.declarations outer path,
      file.Declares x.path x.outer x.decl
  | ⟨name, fields, extensions, nested, enums, oneofs, ranges, reserved, mapEntry, options⟩, outer, path,
      hd, x, hx => by
    rcases mem_declarations_iff.1 hx with rfl | ⟨i, e, he, rfl⟩ | ⟨i, m, hm, hx'⟩ | ⟨i, f, hf, rfl⟩
    case inl => exact hd
    case inr.inl => exact hd.enum he
    case inr.inr.inl =>
      have hmem : m ∈ nested := List.mem_of_getElem? hm
      exact declares_of_mem m (hd.message hm) x hx'
    case inr.inr.inr => exact hd.field hf

end Message

/-- What a file declares is listed, and nothing else. -/
theorem File.mem_declarations_iff {file : File} {x : Declared} :
    x ∈ file.declarations ↔ file.Declares x.path x.outer x.decl := by
  have hlisted : ∀ y, y ∈ file.declarations ↔
      (∃ (i : Nat) (e : Enum), file.enums[i]? = some e ∧
        y = ⟨[5, (i : Int)], file.package, .enum e⟩) ∨
      ∃ (i : Nat) (m : Message), file.messages[i]? = some m ∧
        y ∈ m.declarations file.package [4, (i : Int)] := fun y => by
    simp only [declarations, List.mem_append, mem_mapIdx_iff, Message.mem_declarationsFrom_iff,
      Nat.zero_add, List.cons_append, List.nil_append]
  have hinner : ∀ {y : Declared} {m : Message}, y ∈ file.declarations → y.decl = .message m →
      m.declarations y.outer y.path ⊆ file.declarations := by
    intro y m hy hm z hz
    rcases (hlisted y).1 hy with ⟨i, e, _, rfl⟩ | ⟨i, m', hm', hy'⟩
    · cases hm
    · exact (hlisted z).2 (Or.inr ⟨i, m', hm', m'.declarations_subset hy' hm hz⟩)
  constructor
  · intro hx
    rcases (hlisted x).1 hx with ⟨i, e, he, rfl⟩ | ⟨i, m, hm, hx⟩
    · exact .topEnum he
    · exact m.declares_of_mem (.topMessage hm) x hx
  · suffices key : ∀ path outer decl, file.Declares path outer decl →
        ⟨path, outer, decl⟩ ∈ file.declarations from key x.path x.outer x.decl
    intro path outer decl h
    induction h with
    | topEnum he => exact (hlisted _).2 (Or.inl ⟨_, _, he, rfl⟩)
    | topMessage hm => exact (hlisted _).2 (Or.inr ⟨_, _, hm, Message.self_mem_declarations _ _ _⟩)
    | enum _ he ih =>
      exact hinner ih rfl (Message.mem_declarations_iff.2 (Or.inr (Or.inl ⟨_, _, he, rfl⟩)))
    | message _ hm ih =>
      refine hinner ih rfl (Message.mem_declarations_iff.2 (Or.inr (Or.inr (Or.inl ⟨_, _, hm, ?_⟩))))
      exact Message.self_mem_declarations _ _ _
    | field _ hf ih =>
      exact hinner ih rfl (Message.mem_declarations_iff.2 (Or.inr (Or.inr (Or.inr ⟨_, _, hf, rfl⟩))))

/-! ### Order -/

theorem pathBefore_append : ∀ (path : List Int) {a b : List Int}, path.length % 2 = 0 →
    PathBefore a b → PathBefore (path ++ a) (path ++ b)
  | [], _, _, _, h => h
  | [_], _, _, heven, _ => by simp at heven
  | kind :: i :: path, a, b, heven, h => by
    have hrest : path.length % 2 = 0 := by
      rwa [List.length_cons, List.length_cons, Nat.add_assoc, Nat.add_mod_right] at heven
    exact Or.inr ⟨rfl, Or.inr ⟨rfl, pathBefore_append path hrest h⟩⟩

/-- Some declarations of one kind behind a path, in order, each with all that is declared in it. -/
structure IsBlock (path : List Int) (kind : Int) (l : List Declared) : Prop where
  below : ∀ x ∈ l, ∃ i, x.Below path kind i
  ordered : l.Pairwise Declared.Before

section
variable {path : List Int} (heven : path.length % 2 = 0)
include heven

theorem Declared.Below.before {kind kind' : Int} {i i' : Nat} {x y : Declared}
    (hx : x.Below path kind i) (hy : y.Below path kind' i')
    (h : kind' < kind ∨ kind = kind' ∧ i < i') : x.Before y := by
  obtain ⟨rest, hrest⟩ := hx
  obtain ⟨rest', hrest'⟩ := hy
  rw [Before, hrest, hrest']
  refine pathBefore_append path heven ?_
  exact h.imp_right fun ⟨hkind, hlt⟩ => ⟨hkind, Or.inl (by exact_mod_cast hlt)⟩

theorem IsBlock.before_of_path_eq {kind : Int} {l : List Declared} (hl : IsBlock path kind l)
    {x : Declared} (hx : x.path = path) : ∀ y ∈ l, x.Before y := by
  intro y hy
  obtain ⟨i, rest, hrest⟩ := hl.below y hy
  have h := pathBefore_append path heven (a := []) (b := kind :: (i : Int) :: rest) trivial
  rwa [List.append_nil, ← hrest, ← hx] at h

theorem IsBlock.before {kind kind' : Int} {l l' : List Declared} (hl : IsBlock path kind l)
    (hl' : IsBlock path kind' l') (h : kind' < kind) : ∀ x ∈ l, ∀ y ∈ l', x.Before y := by
  intro x hx y hy
  obtain ⟨i, hi⟩ := hl.below x hx
  obtain ⟨j, hj⟩ := hl'.below y hy
  exact hi.before heven hj (Or.inl h)

theorem isBlock_mapIdx {α : Type} (kind : Int) {f : Nat → α → Declared}
    (hf : ∀ i a, (f i a).path = path ++ [kind, (i : Int)]) (l : List α) :
    IsBlock path kind (l.mapIdx f) where
  below x hx := by
    obtain ⟨i, a, _, rfl⟩ := mem_mapIdx_iff.1 hx
    exact ⟨i, [], hf i a⟩
  ordered := by
    rw [List.pairwise_iff_getElem]
    intro i j hi hj hlt
    rw [List.getElem_mapIdx, List.getElem_mapIdx]
    exact Declared.Below.before heven ⟨[], hf i _⟩ ⟨[], hf j _⟩ (Or.inr ⟨rfl, hlt⟩)

end

theorem Message.path_of_mem_declarations : ∀ (d : Message) {outer : String} {path : List Int}
    {x : Declared}, x ∈ d.declarations outer path → ∃ rest, x.path = path ++ rest
  | ⟨name, fields, extensions, nested, enums, oneofs, ranges, reserved, mapEntry, options⟩, outer, path,
      x, hx => by
    rcases mem_declarations_iff.1 hx with rfl | ⟨i, e, _, rfl⟩ | ⟨i, m, hm, hx'⟩ | ⟨i, f, _, rfl⟩
    case inl => exact ⟨[], (List.append_nil path).symm⟩
    case inr.inl => exact ⟨_, rfl⟩
    case inr.inr.inl =>
      have hmem : m ∈ nested := List.mem_of_getElem? hm
      obtain ⟨rest, hrest⟩ := path_of_mem_declarations m hx'
      exact ⟨_, hrest.trans (List.append_assoc _ _ _)⟩
    case inr.inr.inr => exact ⟨_, rfl⟩

theorem Message.below_of_mem_declarationsFrom {outer : String} {path : List Int} {kind : Int} {i : Nat}
    {ds : List Message} {x : Declared} (hx : x ∈ declarationsFrom outer (path ++ [kind]) i ds) :
    ∃ j, i ≤ j ∧ x.Below path kind j := by
  obtain ⟨j, d, _, hx⟩ := mem_declarationsFrom_iff.1 hx
  obtain ⟨rest, hrest⟩ := d.path_of_mem_declarations hx
  exact ⟨i + j, Nat.le_add_right i j, rest, by simpa using hrest⟩

mutual
theorem Message.pairwise_declarations : ∀ (d : Message) (outer : String) (path : List Int),
    path.length % 2 = 0 → (d.declarations outer path).Pairwise Declared.Before
  | ⟨name, fields, extensions, nested, enums, oneofs, ranges, reserved, mapEntry, options⟩, outer, path,
      heven => by
    have hnested := Message.isBlock_declarationsFrom nested (qualify outer name) 3 0 heven
    rw [declarations_eq]
    have henums := isBlock_mapIdx heven 4 (l := enums)
      (f := fun i e => ⟨path ++ [4, (i : Int)], qualify outer name, .enum e⟩) fun _ _ => rfl
    have hfields := isBlock_mapIdx heven 2 (l := fields)
      (f := fun i f => ⟨path ++ [2, (i : Int)], qualify outer name, .field f⟩) fun _ _ => rfl
    rw [List.pairwise_cons, List.pairwise_append, List.pairwise_append]
    refine ⟨?_, ⟨henums.ordered, hnested.ordered, henums.before heven hnested (by decide)⟩,
      hfields.ordered, ?_⟩
    · simp only [List.forall_mem_append]
      exact ⟨⟨henums.before_of_path_eq heven rfl, hnested.before_of_path_eq heven rfl⟩,
        hfields.before_of_path_eq heven rfl⟩
    · simp only [List.forall_mem_append]
      exact ⟨henums.before heven hfields (by decide), hnested.before heven hfields (by decide)⟩

theorem Message.isBlock_declarationsFrom : ∀ (ds : List Message) (outer : String) {path : List Int}
    (kind : Int) (i : Nat), path.length % 2 = 0 →
      IsBlock path kind (declarationsFrom outer (path ++ [kind]) i ds)
  | [], _, _, _, _, _ => ⟨fun _ hx => absurd hx List.not_mem_nil, .nil⟩
  | d :: ds, outer, path, kind, i, heven => by
    refine ⟨fun x hx => ?_, ?_⟩
    · obtain ⟨j, _, hj⟩ := below_of_mem_declarationsFrom hx
      exact ⟨j, hj⟩
    · have hd := Message.pairwise_declarations d outer (path ++ [kind] ++ [(i : Int)])
        (by simpa using heven)
      have hds := Message.isBlock_declarationsFrom ds outer kind (i + 1) heven
      rw [declarationsFrom, List.pairwise_append]
      refine ⟨hd, hds.ordered, fun x hx y hy => ?_⟩
      obtain ⟨rest, hrest⟩ := d.path_of_mem_declarations hx
      obtain ⟨j, hj, hbelow⟩ := below_of_mem_declarationsFrom hy
      have hx' : x.Below path kind i := ⟨rest, by simpa using hrest⟩
      exact hx'.before heven hbelow (Or.inr ⟨rfl, hj⟩)
end

/-- The declarations of a file are listed in the order of registration. -/
theorem File.pairwise_declarations (file : File) : file.declarations.Pairwise Declared.Before := by
  have hempty : ([] : List Int).length % 2 = 0 := rfl
  have henums := isBlock_mapIdx hempty 5 (l := file.enums)
    (f := fun i e => ⟨[5, (i : Int)], file.package, .enum e⟩) fun _ _ => rfl
  have hmessages := Message.isBlock_declarationsFrom file.messages file.package 4 0 hempty
  exact List.pairwise_append.2
    ⟨henums.ordered, hmessages.ordered, henums.before hempty hmessages (by decide)⟩

end ProtoModels.Descriptor
