/-
This file says which names a module exports and which text a name is, and compares that text with the one
under which the name is listed.
-/
import ImportMeter.Proofs.Script.Quoted
import ImportMeter.Script.Export

namespace ImportMeter.Script

open ImportMeter.Script.Tree

/-! ### What a module exports -/

/-- The names that a pattern binds, in source order. Default values and the keys of properties bind none. -/
def boundIn : Tree → List Tree
  | .leaf role kind letters =>
    if kind = .identifier || kind = .undefinedWord || kind = .shorthandPropertyIdentifierPattern then
      [.leaf role kind letters]
    else []
  | .node _ kind children =>
    match kind with
    | .objectPattern | .arrayPattern | .restPattern => among children
    | .pairPattern => inLast children
    | .assignmentPattern | .objectAssignmentPattern => inFirst children
    | _ => []
where
  among : List Tree → List Tree
    | [] => []
    | tree :: rest => boundIn tree ++ among rest
  inFirst : List Tree → List Tree
    | [] => []
    | tree :: _ => boundIn tree
  inLast : List Tree → List Tree
    | [] => []
    | tree :: rest => if rest.isEmpty then boundIn tree else inLast rest

/-- How a module comes to export a name. -/
inductive Exported where
  | default
  /-- A declaration or a list of names has the name. -/
  | named (name : Tree)
  /-- A pattern in a declaration binds the name. -/
  | bound (name : Tree)
  /-- The name stands for the whole of another module. -/
  | whole (name : Tree)
  deriving DecidableEq

namespace Exported

/-- What a declaration exports. -/
def ofDeclaration (declaration : Tree) : List Exported :=
  match declaration.kind with
  | .lexicalDeclaration | .variableDeclaration =>
    (declaration.children.filter (·.kind = .variableDeclarator)).flatMap fun declarator =>
      declarator.children.head?.toList.flatMap fun target =>
        if target.kind = .identifier then [named target] else (boundIn target).map bound
  | _ => (declaration.children.find? (·.kind = .identifier)).toList.map named

/-- What is exported by what follows the word `export`, white space and comments apart. -/
def ofTokens : List Tree → List Exported
  | first :: _ =>
    match first.kind with
    | .mark => if first.text = Word.defaultWord then [default] else []
    | .namespaceExport => first.children.getLast?.toList.map whole
    | .exportClause =>
      (first.children.filter (·.kind = .exportSpecifier)).flatMap fun specifier =>
        specifier.children.getLast?.toList.map named
    | _ => ofDeclaration first
  | [] => []

/-- What an export statement exports. -/
def ofStatement (statement : Tree) : List Exported :=
  ofTokens ((statement.children.filter (!·.isTrivia)).dropWhile (·.kind = .decorator)).tail

end Exported

/-- What a module exports, in source order. -/
def exported (tree : Tree) : List Exported :=
  (tree.children.filter (·.kind = .exportStatement)).flatMap Exported.ofStatement

/-- What the spelling of an identifier stands for: an escape stands for its character. -/
inductive NameSpells : Text → Text → Prop where
  | nil : NameSpells [] []
  | plain {letter : Char} {text name : Text} (noEscape : letter ≠ '\\') (behind : NameSpells text name) :
      NameSpells (letter :: text) (letter :: name)
  | unit {digits text name : Text} {letter : Char} (isNumeral : IsNumeral 16 digits letter.toNat)
      (four : digits.length = 4) (behind : NameSpells text name) :
      NameSpells ('\\' :: 'u' :: digits ++ text) (letter :: name)
  | codePoint {digits text name : Text} {letter : Char} (isNumeral : IsNumeral 16 digits letter.toNat)
      (behind : NameSpells text name) :
      NameSpells ('\\' :: 'u' :: '{' :: digits ++ '}' :: text) (letter :: name)

/-- True for a name in a module and the text that it is: the value of a string, or else an identifier. -/
def Tree.HasName (tree : Tree) (name : Text) : Prop :=
  if tree.kind = .string then HasValue tree.text name else NameSpells tree.text name

theorem Tree.hasName_string {tree : Tree} {name : Text} (isString : tree.kind = .string) :
    tree.HasName name ↔ HasValue tree.text name := by
  rw [HasName, if_pos isString]

theorem Tree.hasName_identifier {tree : Tree} {name : Text} (notString : tree.kind ≠ .string) :
    tree.HasName name ↔ NameSpells tree.text name := by
  rw [HasName, if_neg notString]

/-- True for an identifier with an escape, which is not decoded. -/
def Tree.IsEscaped (tree : Tree) : Prop := tree.kind ≠ .string ∧ '\\' ∈ tree.text

/-- True for an identifier with an escape and for a string with an escape that the decoder misreads. -/
def Tree.IsMisnamed (tree : Tree) : Prop :=
  tree.IsEscaped ∨ tree.kind = .string ∧
    ∃ part ∈ tree.children, part.kind = .escapeSequence ∧ IsMisread part.text

namespace Exported

/-- True for an exported name and its text. -/
def HasName : Exported → Text → Prop
  | default, text => text = Word.defaultWord
  | named name, text | bound name, text | whole name, text => name.HasName text

def IsEscaped : Exported → Prop
  | default => False
  | named name | bound name | whole name => name.IsEscaped

def IsMisnamed : Exported → Prop
  | default => False
  | named name | bound name | whole name => name.IsMisnamed

/-- True for a name that is not listed. -/
def isLost : Exported → Bool
  | bound _ | whole _ => true
  | default | named _ => false

/-- The text under which a name is listed. -/
def listed? : Exported → Option Text
  | default => some Word.defaultWord
  | named name => some ((stringValue? name).getD name.text)
  | bound _ | whole _ => none

end Exported

/-! ### The texts of names -/

/-- An identifier without an escape spells itself and nothing else. -/
theorem nameSpells_iff_eq {text name : Text} (plain : '\\' ∉ text) : NameSpells text name ↔ name = text := by
  constructor
  · intro spells
    induction spells with
    | nil => rfl
    | plain _ _ inductionHypothesis =>
        rw [inductionHypothesis fun member => plain (List.mem_cons_of_mem _ member)]
    | unit | codePoint => exact absurd List.mem_cons_self plain
  · rintro rfl
    induction name with
    | nil => exact .nil
    | cons letter rest inductionHypothesis =>
        have noEscape : letter ≠ '\\' := fun same => plain (same ▸ List.mem_cons_self)
        exact .plain noEscape (inductionHypothesis fun member => plain (List.mem_cons_of_mem _ member))

/-- An escape is longer than the character that it stands for. -/
theorem NameSpells.length_le {text name : Text} (spells : NameSpells text name) :
    name.length ≤ text.length ∧ ('\\' ∈ text → name.length < text.length) := by
  induction spells with
  | nil => exact ⟨Nat.le_refl _, nofun⟩
  | plain noEscape _ inductionHypothesis =>
      refine ⟨Nat.succ_le_succ inductionHypothesis.1, fun member => ?_⟩
      have later := (List.mem_cons.mp member).resolve_left noEscape.symm
      exact Nat.succ_lt_succ (inductionHypothesis.2 later)
  | unit _ _ _ inductionHypothesis =>
      simp only [List.length_cons, List.cons_append, List.length_append]
      exact ⟨by omega, fun _ => by omega⟩
  | codePoint _ _ inductionHypothesis =>
      simp only [List.length_cons, List.cons_append, List.length_append]
      exact ⟨by omega, fun _ => by omega⟩

/-- True for a tree whose literals are made of quotes and parts. -/
def IsLiteral (tree : Tree) : Prop := tree.WellFormed ∧ HoldsLiterals tree

theorem IsLiteral.child {tree child : Tree} (isLiteral : IsLiteral tree) (member : child ∈ tree.children)
    (outside : ¬ (tree.kind = .jsxAttribute ∧ child.kind = .string)) : IsLiteral child := by
  obtain ⟨wellFormed, holds⟩ := isLiteral
  cases tree with
  | leaf => cases member
  | node role kind children =>
      cases holds with
      | node _ _ inside => exact ⟨wellFormed.children child member, inside child member outside⟩

theorem parse?_isLiteral {source : Text} {tree : Tree} (parsed : parse? source = some tree) :
    IsLiteral tree :=
  ⟨(parse?_sound parsed).2.1, parse?_holdsLiterals parsed⟩

/-- A name is listed as the text that it is, unless an escape is misread. -/
theorem IsLiteral.getD_stringValue? {tree : Tree} {name : Text} (isLiteral : IsLiteral tree)
    (hasName : tree.HasName name) :
    (¬ tree.IsMisnamed → (stringValue? tree).getD tree.text = name) ∧
      (tree.IsEscaped → (stringValue? tree).getD tree.text ≠ name) := by
  obtain ⟨wellFormed, holds⟩ := isLiteral
  by_cases isString : tree.kind = .string
  · rw [hasName_string isString] at hasName
    refine ⟨fun read => ?_, fun escaped => absurd isString escaped.1⟩
    have isNode := wellFormed.eq_node (congrArg Kind.isToken isString)
    rw [isString] at isNode
    rw [isNode] at holds hasName
    cases holds with
    | node _ quoted =>
        rw [stringValue?, if_pos isString]
        exact (quoted rfl).flatMap_partValue hasName fun part member isEscape misread =>
          read (.inr ⟨isString, part, member, isEscape, misread⟩)
  · rw [hasName_identifier isString] at hasName
    rw [stringValue?, if_neg isString]
    refine ⟨fun read => ?_, fun escaped same => ?_⟩
    · exact ((nameSpells_iff_eq fun member => read (.inl ⟨isString, member⟩)).mp hasName).symm
    · exact absurd (congrArg List.length same.symm) (Nat.ne_of_lt (hasName.length_le.2 escaped.2))

theorem isLiteral_of_declaration {declaration name : Tree} (isLiteral : IsLiteral declaration)
    (member : Exported.named name ∈ Exported.ofDeclaration declaration) : IsLiteral name := by
  have ofVariables (declares : declaration.kind ≠ .jsxAttribute) (member : Exported.named name ∈
        (declaration.children.filter (·.kind = .variableDeclarator)).flatMap fun declarator =>
          declarator.children.head?.toList.flatMap fun target =>
            if target.kind = .identifier then [Exported.named target] else (boundIn target).map .bound) :
      IsLiteral name := by
    obtain ⟨declarator, isDeclarator, member⟩ := List.mem_flatMap.mp member
    obtain ⟨isChild, isKind⟩ := List.mem_filter.mp isDeclarator
    have isKind : declarator.kind = .variableDeclarator := of_decide_eq_true isKind
    obtain ⟨target, isFirst, member⟩ := List.mem_flatMap.mp member
    have isTarget := List.mem_of_mem_head? (Option.mem_toList.mp isFirst)
    split at member
    next =>
      cases List.mem_singleton.mp member
      refine (isLiteral.child isChild fun inMarkup => declares inMarkup.1).child isTarget ?_
      rw [isKind]
      nofun
    next =>
      obtain ⟨bound, _, same⟩ := List.mem_map.mp member
      cases same
  unfold Exported.ofDeclaration at member
  split at member
  next isLexical => exact ofVariables (by rw [isLexical]; nofun) member
  next isVariable => exact ofVariables (by rw [isVariable]; nofun) member
  next =>
    obtain ⟨found, isFound, same⟩ := List.mem_map.mp member
    cases same
    have found := Option.mem_toList.mp isFound
    have passes := List.find?_some found
    have isName : name.kind = .identifier := of_decide_eq_true passes
    exact isLiteral.child (List.mem_of_find?_eq_some found) (by rw [isName]; nofun)

theorem isLiteral_of_tokens {tokens : List Tree} {name : Tree} (inside : ∀ tree ∈ tokens, IsLiteral tree)
    (member : Exported.named name ∈ Exported.ofTokens tokens) : IsLiteral name := by
  cases tokens with
  | nil => cases member
  | cons first rest =>
      have isLiteral := inside first List.mem_cons_self
      rw [Exported.ofTokens] at member
      split at member
      next =>
        split at member
        · cases List.mem_singleton.mp member
        · cases member
      next =>
        obtain ⟨_, _, same⟩ := List.mem_map.mp member
        cases same
      next isClause =>
        obtain ⟨specifier, isSpecifier, member⟩ := List.mem_flatMap.mp member
        obtain ⟨isChild, isKind⟩ := List.mem_filter.mp isSpecifier
        have isKind : specifier.kind = .exportSpecifier := of_decide_eq_true isKind
        obtain ⟨last, isLast, same⟩ := List.mem_map.mp member
        cases same
        have isName := List.mem_of_getLast? (Option.mem_toList.mp isLast)
        refine (isLiteral.child isChild ?_).child isName ?_
        · rw [isClause]
          nofun
        · rw [isKind]
          nofun
      next => exact isLiteral_of_declaration isLiteral member

/-- The names that are listed are parts of the module. -/
theorem isLiteral_of_named {tree name : Tree} (isLiteral : IsLiteral tree) (isModule : tree.kind = .program)
    (member : Exported.named name ∈ exported tree) : IsLiteral name := by
  obtain ⟨statement, isStatement, member⟩ := List.mem_flatMap.mp member
  obtain ⟨isChild, isExport⟩ := List.mem_filter.mp isStatement
  have isExport : statement.kind = .exportStatement := of_decide_eq_true isExport
  have ofStatement := isLiteral.child isChild (by rw [isModule]; nofun)
  refine isLiteral_of_tokens (fun tree isIn => ?_) member
  have isToken := List.IsSuffix.mem (List.mem_of_mem_tail isIn) (List.dropWhile_suffix _)
  exact ofStatement.child (List.mem_of_mem_filter isToken) (by rw [isExport]; nofun)

end ImportMeter.Script
