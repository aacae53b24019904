import SchemaDocs.Conversion
import SchemaDocs.Doc.Json
import SchemaDocs.Json.Parse
import SchemaDocs.Json.Print
import SchemaDocs.Pruning
import SchemaDocs.Schema.Json
import SchemaDocs.Stream

/-!
# Phases

The two steps that can run on their own: conversion, from a schema to packages, and pruning, from
packages to packages. Each reads a JSON document to its end before it writes one.
-/

namespace SchemaDocs

open Doc (Package)

/-- The value of a JSON document. -/
def Json.Reader.document? {α : Type} (read : Json.Reader α) (text : String) : Option α := do
  read Json.maxDepth (← Json.parse? text.toList)

inductive Phase where
  | convert
  | prune
deriving DecidableEq

/-- Why a phase fails. -/
inductive PhaseError where
  /-- The input is no document of the kind that the phase reads. -/
  | malformed
  | conversion (e : ConversionError)
  | resolution (e : ResolutionError)
  /-- The output broke off inside the document. -/
  | document (cause : FileError)
  /-- The input, or the line break after the document. -/
  | stream (cause : FileError)
deriving DecidableEq

def PhaseError.message : PhaseError → String
  | malformed => "failed to deserialize input"
  | conversion e => e.message
  | resolution e => e.message
  | document cause => "failed to serialize output: " ++ cause.message
  | stream cause => "I/O error: " ++ cause.message

/-- A list of packages as a document. -/
def packagesJson (ps : List Package) : Json.Value := .array (ps.map (·.toJson))

/-- The pretty text of a document. -/
def prettyText (v : Json.Value) : String := String.ofList v.pretty

namespace Phase

/-- The packages of a schema that a text holds. -/
def convertText (text : String) : Except PhaseError (List Package) :=
  match Schema.read.document? text with
  | none => .error .malformed
  | some s => s.packages.mapError .conversion

/-- The pruned packages of a list that a text holds. -/
def pruneText (text : String) : Except PhaseError (List Package) :=
  match (Json.Reader.list Package.read).document? text with
  | none => .error .malformed
  | some ps => ((SchemaDocs.prune ps).map (·.1)).mapError .resolution

def apply : Phase → String → Except PhaseError (List Package)
  | convert => convertText
  | prune => pruneText

/-- The packages that a phase makes of the bytes of an input, or of the failure to read them. -/
def result (p : Phase) (input : Except FileError ByteArray) : Except PhaseError (List Package) :=
  match input.bind decodeText with
  | .error e => .error (.stream e)
  | .ok text => p.apply text

/-- Writes a document and a line break. -/
def emit (v : Json.Value) (out : Sink) : Except PhaseError Unit × Sink :=
  match out.writeText (prettyText v) with
  | (.error e, out) => (.error (.document e), out)
  | (.ok (), out) =>
    match out.writeText "\n" with
    | (.error e, out) => (.error (.stream e), out)
    | (.ok (), out) => (.ok (), out)

/-- Runs a phase. -/
def run (p : Phase) (input : Except FileError ByteArray) (out : Sink) :
    Except PhaseError Unit × Sink :=
  match p.result input with
  | .error e => (.error e, out)
  | .ok ps => emit (packagesJson ps) out

end Phase
end SchemaDocs
