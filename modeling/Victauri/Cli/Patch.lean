import Mathlib.Data.List.Infix
import Victauri.Cli.Run
import Victauri.Cli.RustCode
import Victauri.Library.Lines

/-!
# Wiring the plugin into a source file

`try_patch_tauri_builder` and `patch_optional_wiring` of the CLI's `main.rs`.  A text is its
characters; an index into a text counts bytes, as in the source.  Whether writing a file succeeds is
not modelled.
-/

namespace Victauri.Cli.Patch

open RustCode
open Run (Text isWhitespace)

/-! ## Texts -/

def contains (pattern text : Text) : Bool := decide (pattern <:+: text)

/-- `str::trim`. -/
def trim (text : Text) : Text :=
  ((text.dropWhile isWhitespace).reverse.dropWhile isWhitespace).reverse

def lines (text : Text) : List Text := Lines.lines '\n' '\r' text

/-- `str::match_indices`, over the bytes: `skip` bytes belong to the match before. -/
def matchIndices (pattern : List UInt8) (skip index : Nat) : List UInt8 → List Nat
  | [] => []
  | b :: rest =>
      match skip with
      | skip + 1 => matchIndices pattern skip (index + 1) rest
      | 0 =>
          if pattern <+: b :: rest then
            index :: matchIndices pattern (pattern.length - 1) (index + 1) rest
          else matchIndices pattern 0 (index + 1) rest

/-- `&text[..index]` and `&text[index..]`. -/
def cutAt (index : Nat) : Text → Text × Text
  | [] => ([], [])
  | c :: rest =>
      if c.utf8Size ≤ index then
        let (front, back) := cutAt (index - c.utf8Size) rest
        (c :: front, back)
      else ([], c :: rest)

/-- `str::replace`; `skip` characters belong to the match before. -/
def replaceAll (pattern by' : Text) (skip : Nat) : Text → Text
  | [] => []
  | c :: rest =>
      match skip with
      | skip + 1 => replaceAll pattern by' skip rest
      | 0 =>
          if pattern <+: c :: rest then by' ++ replaceAll pattern by' (pattern.length - 1) rest
          else c :: replaceAll pattern by' 0 rest

/-- `rust_code_only` of a text. -/
def codeOf (content : Text) : Text := (rustCodeOnly (String.ofList content)).toList

/-- `eol`. -/
def eolOf (content : Text) : Text := if contains ['\r', '\n'] content then ['\r', '\n'] else ['\n']

/-! ## Behind a Cargo feature -/

def snippetTemplate : String :=
  "\n" ++
  "/// Victauri — an MCP server inside the app for AI agents (debug builds only). " ++
    "Compiled only\n" ++
  "/// with the `__FEATURE__` Cargo feature (`tauri dev --features __FEATURE__`), so a " ++
    "build without\n" ++
  "/// it contains no Victauri code at all. Added by `victauri init`.\n" ++
  "#[cfg(feature = \"__FEATURE__\")]\n" ++
  "fn with_victauri<R: tauri::Runtime>(builder: tauri::Builder<R>) -> tauri::Builder<R> " ++
    "\x7b\n" ++
  "    builder.plugin(victauri_plugin::init()).plugin(\n" ++
  "        // Grant `victauri:default` to every window at runtime: a capability FILE " ++
    "naming it would\n" ++
  "        // break builds without the feature (Tauri rejects permissions of plugins not " ++
    "built in).\n" ++
  "        // `add_capability` needs Tauri's `dynamic-acl` feature — on by default; if " ++
    "you build\n" ++
  "        // tauri with `default-features = false`, enable `dynamic-acl` for this to " ++
    "compile.\n" ++
  "        tauri::plugin::Builder::<R>::new(\"victauri-capability\")\n" ++
  "            .setup(|app, _api| \x7b\n" ++
  "                tauri::Manager::add_capability(\n" ++
  "                    app,\n" ++
  "                    tauri::ipc::CapabilityBuilder::new(\"victauri\")\n" ++
  "                        .window(\"*\")\n" ++
  "                        .permission(\"victauri:default\"),\n" ++
  "                )?;\n" ++
  "                Ok(())\n" ++
  "            \x7d)\n" ++
  "            .build(),\n" ++
  "    )\n" ++
  "\x7d\n" ++
  "\n" ++
  "/// Without the `__FEATURE__` feature: the builder, unchanged.\n" ++
  "#[cfg(not(feature = \"__FEATURE__\"))]\n" ++
  "fn with_victauri<R: tauri::Runtime>(builder: tauri::Builder<R>) -> tauri::Builder<R> " ++
    "\x7b\n" ++
  "    builder\n" ++
  "\x7d\n"

def optionalWiringSnippet (feature : Text) : Text :=
  replaceAll "__FEATURE__".toList feature 0 snippetTemplate.toList

/-- `BUILDER`. -/
def builder : Text := "tauri::Builder::default()".toList

def withVictauri : Text := "with_victauri(".toList

def patchOptionalWiring (content feature : Text) : Option Text :=
  match matchIndices (Utf8.encode builder) 0 0 (Utf8.encode (codeOf content)) with
  | [index] =>
      let eol := eolOf content
      let out := (cutAt index content).1 ++ withVictauri ++ builder ++ [')'] ++
        (cutAt (index + builder.length) content).2
      let out := if out.getLast? = some '\n' then out else out ++ eol
      some (out ++ (optionalWiringSnippet feature).flatMap fun c => if c = '\n' then eol else [c])
  | _ => none

/-! ## An ordinary dependency -/

def isRunLine (line : Text) : Bool :=
  let trimmed := trim line
  contains ".run(tauri::generate_context".toList trimmed ||
    contains ".build(tauri::generate_context".toList trimmed

/-- `continues_chain`, of the code lines before. -/
def continuesChain (before : List Text) : Bool :=
  match (before.reverse.map trim).find? (fun line => !line.isEmpty) with
  | none => false
  | some prev =>
      prev.getLast? ≠ some ';' && prev.getLast? ≠ some '{' && prev.getLast? ≠ some '}'

/-- `insert_idx`. -/
def insertIdx (codeLines : List Text) : Option Nat :=
  match codeLines.findIdx? isRunLine with
  | none => none
  | some i =>
      if (trim (codeLines.getD i [])).head? = some '.' ∧ continuesChain (codeLines.take i) then
        some i
      else none

def pluginCall : Text := ".plugin(victauri_plugin::init())".toList

def insertPlugin (content : Text) (idx : Nat) : Text :=
  let lines := lines content
  let indent := (lines.getD idx []).takeWhile isWhitespace
  let pluginLine := indent ++ pluginCall
  let newLines := lines.take idx ++ pluginLine :: lines.drop idx
  let eol := eolOf content
  let newContent := eol.intercalate newLines
  if content.getLast? = some '\n' then newContent ++ eol else newContent

/-! ## The source files -/

inductive Filename where
  | libRs
  | mainRs
  deriving DecidableEq

/-- A file of the source directory: its text, if it can be read as one. -/
structure SourceFile where
  content : Option Text
  isSymlink : Bool

inductive Outcome where
  | unreadable (file : Filename)
  | refusedSymlink (file : Filename)
  | alreadyWired (file : Filename)
  | written (file : Filename) (newContent : Text)
  | notPatched
  deriving DecidableEq

/-- `refuse_symlink` and the write. -/
def writeBack (filename : Filename) (file : SourceFile) (newContent : Text) : Outcome :=
  if file.isSymlink then .refusedSymlink filename else .written filename newContent

/-- What becomes of a file; `none` goes on with the next. -/
def patchFile (feature : Option Text) (filename : Filename) (file : SourceFile) : Option Outcome :=
  match file.content with
  | none => some (.unreadable filename)
  | some content =>
      let code := codeOf content
      if contains "victauri_plugin".toList code then some (.alreadyWired filename)
      else if !contains "tauri::Builder".toList code then none
      else
        match feature with
        | some feature =>
            match patchOptionalWiring content feature with
            | none => none
            | some newContent => some (writeBack filename file newContent)
        | none =>
            match insertIdx (lines code) with
            | none => none
            | some idx => some (writeBack filename file (insertPlugin content idx))

def tryPatchTauriBuilder (srcDir : Filename → Option SourceFile) (feature : Option Text) :
    Outcome :=
  let patch := fun filename =>
    match srcDir filename with
    | none => none
    | some file => patchFile feature filename file
  ([.libRs, .mainRs].findSome? patch).getD .notPatched

end Victauri.Cli.Patch
