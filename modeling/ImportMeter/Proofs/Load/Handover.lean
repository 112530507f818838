/-
This file compares what a specifier was resolved to with what the loader makes of it. A path is handed
over as a text, which the loader takes for a path only if it begins with a slash or with a dot.
-/
import ImportMeter.FileTree.Build
import ImportMeter.Proofs.Attempt
import ImportMeter.Proofs.Glob.Listing
import ImportMeter.Proofs.Load.Counting
import ImportMeter.Proofs.Package.Root
import ImportMeter.Proofs.Path.Normal
import ImportMeter.Proofs.Path.Parent
import ImportMeter.Proofs.Text.Percent

namespace ImportMeter

namespace Path

variable {path : Path}

/-- True for a path that is told from a package name: it begins with a slash or with a dot. -/
def LooksLikePath (path : Path) : Prop :=
  path.isAbsolute = true ∨ path.letters.head? = some '.'

instance : DecidablePred LooksLikePath := fun path =>
  inferInstanceAs (Decidable (path.isAbsolute = true ∨ path.letters.head? = some '.'))

end Path

/-- The path of a file URL is absolute. -/
theorem Specifier.isAbsolute_of_fileScheme {location : Text} {file : Path}
    (isUrl : Text.startsWith location fileScheme = true) (located : locationPath? location = some file) :
    file.isAbsolute = true := by
  obtain ⟨rest, isRest⟩ := Option.isSome_iff_exists.mp isUrl
  rw [locationPath?, isRest] at located
  dsimp only at located
  split at located
  next rooted =>
    obtain ⟨others, letters⟩ := List.head?_eq_some_iff.mp rooted
    rw [letters, Text.percentDecode_cons (by decide)] at located
    cases located
    rfl
  next => cases located

namespace Loader

variable {tree : FileTree} {base path : Path}

/-- A text that begins like a path is read as that path, seen from the directory of the loader. -/
theorem locate_of_looksLikePath (tree : FileTree) (base : Path) (looks : path.LooksLikePath) :
    locate tree base path.letters = entryFile tree path.letters (base.join path).normalize := by
  have noScheme : Text.startsWith path.letters Specifier.fileScheme = false := by
    rcases looks with absolute | dotted
    · obtain ⟨rest, letters⟩ := Path.isAbsolute_iff.mp absolute
      rw [letters]
      rfl
    · obtain ⟨rest, letters⟩ := List.head?_eq_some_iff.mp dotted
      rw [letters]
      rfl
  have isPath : (path.letters.head? = some '/' || path.letters.head? = some '.') = true := by
    rw [Bool.or_eq_true, decide_eq_true_eq, decide_eq_true_eq]
    exact looks.imp_left of_decide_eq_true
  rw [locate, candidate, noScheme]
  simp only [Bool.false_eq_true, if_false, isPath, if_true]
  rfl

/-- A tree without any directory. -/
def barrenTree : FileTree := ⟨.file, fun _ => ⟨.text [], true, true⟩, ⟨['/']⟩⟩

/-- Nothing is found where there is no directory. -/
theorem exists_node_barrenTree (path : Path) : ∃ fault, barrenTree.node path = .error fault := by
  have located : ∃ fault, barrenTree.locate true path = .error fault := by
    rw [FileTree.locate]
    split
    · exact ⟨_, rfl⟩
    split
    · exact ⟨_, rfl⟩
    split
    · exact ⟨_, rfl⟩
    · cases pieces : (barrenTree.workingDirectory.join path).letters.splitOn '/' with
      | nil => exact absurd pieces (Text.splitOn_ne_nil _ _)
      | cons piece pieces => exact ⟨.notDirectory, rfl⟩
  obtain ⟨fault, located⟩ := located
  exact ⟨fault, by rw [FileTree.node, located]; rfl⟩

theorem entryFile_barrenTree (target : Text) (path : Path) :
    entryFile barrenTree target path = .error (.notLoaded target (.pathMissing path)) := by
  obtain ⟨fault, none⟩ := exists_node_barrenTree path
  have noFile : barrenTree.isFile path = false := by rw [FileTree.isFile, none]
  have noDirectory : barrenTree.isDirectory path = false := by
    rw [FileTree.isDirectory, FileTree.entries?, none]
    rfl
  rw [entryFile, noFile, noDirectory]
  rfl

theorem findInstalled?_barrenTree (base : Path) (specifier : Text) :
    findInstalled? barrenTree base specifier = none := by
  refine List.find?_eq_none.mpr fun path _ => ?_
  obtain ⟨fault, none⟩ := exists_node_barrenTree path
  rw [FileTree.has, none]
  exact Bool.false_ne_true

/-- Only a text that begins like a path is read as that path in every tree. -/
theorem looksLikePath_of_locate
    (same : locate barrenTree ⟨[]⟩ path.letters =
      entryFile barrenTree path.letters ((Path.mk []).join path).normalize) :
    path.LooksLikePath := by
  by_contra other
  obtain ⟨relative, notDotted⟩ := not_or.mp other
  have relative := eq_false_of_ne_true relative
  have joined : (Path.mk []).join path = path := by
    rw [Path.join, relative]
    rfl
  have isPath : (path.letters.head? = some '/' || path.letters.head? = some '.') = false := by
    rw [Bool.or_eq_false_iff]
    exact ⟨relative, decide_eq_false notDotted⟩
  rw [joined, entryFile_barrenTree, locate, candidate] at same
  split at same
  next isUrl =>
    cases located : Specifier.locationPath? path.letters with
    | none =>
        rw [located] at same
        cases same
    | some file =>
        rw [located] at same
        have same : entryFile barrenTree path.letters file = _ := same
        rw [entryFile_barrenTree, Except.error.injEq, Error.notLoaded.injEq,
          LoadFault.pathMissing.injEq] at same
        have isRelative := (Path.isAbsolute_normalize_eq _).trans relative
        rw [← same.2, Specifier.isAbsolute_of_fileScheme isUrl located] at isRelative
        cases isRelative
  next =>
    simp only [isPath, Bool.false_eq_true, if_false, findInstalled?_barrenTree] at same
    cases same

end Loader

/-- The members that patterns list are absolute paths. -/
theorem Workspace.isAbsolute_of_mem_membersOf {tree : FileTree} {root member : Path}
    {patterns : List Text} {members : List Path} (listed : membersOf tree root patterns = .ok members)
    (isMember : member ∈ members) : member.isAbsolute = true := by
  obtain ⟨rules, areRules, kept⟩ := bind_eq_ok_iff.mp listed
  cases kept
  obtain ⟨rule, inRules, isAdded⟩ := List.mem_flatMap.mp (List.mem_of_mem_filter isMember)
  obtain ⟨pattern, _, isRule⟩ := exists_of_mem_mapM areRules inRules
  rw [ruleOf.eq_def] at isRule
  split at isRule
  next =>
    split at isRule
    · cases isRule
      cases isAdded
    · cases isRule
  next =>
    split at isRule
    next files expanded =>
      cases isRule
      obtain ⟨file, inFiles, parent⟩ := List.mem_filterMap.mp isAdded
      have absolute := (Path.behindSlash_parent (Glob.isAbsolute_of_mem_expand expanded inFiles)).1
      rwa [parent] at absolute
    next => cases isRule

theorem Workspace.isAbsolute_of_mem_members {tree : FileTree} {directory member : Path}
    {listed : List Path} (found : members tree directory = .ok listed) (isMember : member ∈ listed) :
    member.isAbsolute = true := by
  obtain ⟨root, _, others⟩ := bind_eq_ok_iff.mp found
  obtain ⟨manifest, _, listed⟩ := bind_eq_ok_iff.mp others
  exact isAbsolute_of_mem_membersOf listed isMember

variable {σ : Type}

namespace Resolver

open Request (tableResolver)

/-- A path next to an importer with an absolute path is absolute. -/
theorem isAbsolute_of_resolveRelative? {specifier importer : Text} {file path : Path}
    (located : Specifier.locationPath? importer = some file)
    (rooted : file.isAbsolute = true ∨ file.letters = [])
    (resolved : Specifier.resolveRelative? specifier importer = some path) : path.isAbsolute = true := by
  rw [Specifier.resolveRelative?, located] at resolved
  cases resolved
  refine Path.isAbsolute_normalize (Path.isAbsolute_join _ ?_)
  rcases rooted with absolute | empty
  · exact (Path.behindSlash_parent absolute).1
  · obtain rfl : file = ⟨[]⟩ := congrArg Path.mk empty
    rfl

/-- A relative specifier is resolved next to the importer. -/
theorem resolve_relative (resolver : Resolver σ) {specifier importer : Text}
    (isRelative : resolver.classify specifier = .relative) :
    resolver.resolve specifier importer =
      match Specifier.resolveRelative? specifier importer with
      | some path => .ok (.path path)
      | none => .error (.importerUnsupported importer) := by
  cases leads : Specifier.resolveRelative? specifier importer <;> simp only [resolve, isRelative, leads]

/-- A path that a specifier was resolved to is loaded as that path, seen from the directory of the
loader, exactly if it begins with a slash or with a dot. That is so next to importers with an absolute
path, and for the members that are found in a tree of files. -/
theorem load_resolvedPath (resolver : Resolver σ) {specifier importer : Text} {path : Path}
    (resolved : resolver.resolve specifier importer = .ok (.path path)) :
    (path.LooksLikePath ↔ ∀ tree base, Loader.locate tree base (Target.path path).letters =
      Loader.entryFile tree path.letters (base.join path).normalize) ∧
    (path.LooksLikePath → ∀ (own : Option (Loader σ)) tree base,
      own.getD resolver.loader = .ofFiles tree base → ∀ nanoseconds session state,
        resolver.load specifier (some importer) own nanoseconds session state =
          resolver.load specifier (some importer) (some fun target state =>
            (Loader.entryFile tree target (base.join path).normalize >>= Loader.moduleIn tree, state))
            nanoseconds session state) ∧
    (resolver.classify specifier = .relative → ∀ file,
      Specifier.locationPath? importer = some file → file.isAbsolute = true ∨ file.letters = [] →
        path.LooksLikePath) ∧
    (resolver.classify specifier = .workspace → ∀ tree, resolver.packages = .ofTree tree →
      path.LooksLikePath) := by
  refine ⟨⟨fun looks tree base => Loader.locate_of_looksLikePath tree base looks,
    fun same => Loader.looksLikePath_of_locate (same Loader.barrenTree ⟨[]⟩)⟩,
    fun looks own tree base fromFiles nanoseconds session state => ?_,
    fun isRelative file located rooted => .inl ?_, fun isWorkspace tree packages => .inl ?_⟩
  · rw [load, load]
    cases planned : resolver.plan specifier (some importer) with
    | error error => rfl
    | ok plan =>
        have target : plan.target = .path path := by
          by_cases given : importer = []
          · have missing : (some importer).getD [] = [] := given
            rw [resolver.plan_importerMissing specifier missing] at planned
            cases planned
          · rw [resolver.plan_eq specifier given, resolved] at planned
            cases planned
            rfl
        have same : Loader.load tree base path.letters =
            Loader.entryFile tree path.letters (base.join path).normalize >>= Loader.moduleIn tree := by
          rw [Loader.load, Loader.locate_of_looksLikePath tree base looks]
        simp only [fromFiles, Loader.ofFiles, target, Target.letters, same, Option.getD_some]
  · rw [resolver.resolve_relative isRelative] at resolved
    cases found : Specifier.resolveRelative? specifier importer with
    | none =>
        rw [found] at resolved
        cases resolved
    | some other =>
        rw [found] at resolved
        cases resolved
        exact isAbsolute_of_resolveRelative? located rooted found
  · cases imports : Specifier.importerDirectory? importer with
    | none =>
        rw [resolve, isWorkspace, resolveMember, imports] at resolved
        cases resolved
    | some directory =>
        rw [resolver.resolve_workspace isWorkspace imports, packages] at resolved
        obtain ⟨listed, member, isMember, found, same⟩ := leadAmong_eq_ok resolved
        cases same
        exact Workspace.isAbsolute_of_mem_members found isMember

/-- A tree with a single script. -/
def scriptTree : FileTree :=
  FileTree.empty.putFile ["srv".toList, "b.js".toList] ⟨.text "export default 1;".toList, true, true⟩

/-- A path that leads upward is loaded from above the directory of the loader. -/
theorem load_resolvedPath_upward :
    tableResolver.resolve "../../b.js".toList "lib/a.js".toList = .ok (.path ⟨"../b.js".toList⟩) ∧
      Loader.locate scriptTree ⟨"/srv/app".toList⟩ "../b.js".toList = .ok ⟨"/srv/b.js".toList⟩ := by
  have resolved : tableResolver.resolve "../../b.js".toList "lib/a.js".toList =
      .ok (.path ⟨"../b.js".toList⟩) := by
    have found : Specifier.resolveRelative? "../../b.js".toList "lib/a.js".toList =
        some ⟨"../b.js".toList⟩ := by decide +kernel
    rw [resolve_relative _ (by decide +kernel), found]
  have looks : Path.LooksLikePath ⟨"../b.js".toList⟩ := by decide +kernel
  have located := (tableResolver.load_resolvedPath resolved).1.mp looks scriptTree ⟨"/srv/app".toList⟩
  refine ⟨resolved, located.trans ?_⟩
  have there : (Path.join ⟨"/srv/app".toList⟩ ⟨"../b.js".toList⟩).normalize = ⟨"/srv/b.js".toList⟩ := by
    decide +kernel
  have isFile : scriptTree.isFile ⟨"/srv/b.js".toList⟩ = true := by decide +kernel
  rw [there, Loader.entryFile, if_pos isFile]

/-- A module next to an importer with a relative path is searched for among the installed packages. -/
theorem load_resolvedPath_package :
    ¬ ∀ (specifier importer : Text) (path : Path) (tree : FileTree) (base : Path),
      tableResolver.classify specifier ≠ .bare →
      tableResolver.resolve specifier importer = .ok (.path path) →
      Loader.locate tree base (Target.path path).letters =
        Loader.entryFile tree path.letters (base.join path).normalize := by
  intro claim
  have found : Specifier.resolveRelative? "./b.js".toList "srv/a.js".toList =
      some ⟨"srv/b.js".toList⟩ := by decide +kernel
  have resolved : tableResolver.resolve "./b.js".toList "srv/a.js".toList =
      .ok (.path ⟨"srv/b.js".toList⟩) := by
    rw [resolve_relative _ (by decide +kernel), found]
  have same := claim "./b.js".toList "srv/a.js".toList ⟨"srv/b.js".toList⟩ scriptTree ⟨['/']⟩
    (by decide +kernel) resolved
  have nothing : (Loader.locate scriptTree ⟨['/']⟩ (Target.path ⟨"srv/b.js".toList⟩).letters).toOption =
      none := by decide +kernel
  have isFile : scriptTree.isFile (Path.join ⟨['/']⟩ ⟨"srv/b.js".toList⟩).normalize = true := by
    decide +kernel
  rw [same, Loader.entryFile, if_pos isFile] at nothing
  cases nothing

end Resolver

end ImportMeter
