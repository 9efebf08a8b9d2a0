import GeminiCpp.Bytes
import GeminiCpp.Lib.MultiMap
import Mathlib.Data.Finset.Insert

/-! The command-line parser of the applications (`cli_args.hpp`, `cli_args.cpp`):
`--name value`, `--name=value`, boolean `--flag`, repeated options, and `--` to end option
parsing. -/
namespace GeminiCpp.Cli

structure Spec where
  /-- Options that take a value. -/
  valueOptions : Finset Bytes
  /-- Boolean options. -/
  flags : Finset Bytes

structure Args where
  values : MultiMap Bytes Bytes
  flags : Finset Bytes
  positional : List Bytes

def dashes : Bytes := ascii "--"

/-- The name of an option and its inline value, from the word without its dashes. -/
def splitInline (name : Bytes) : Bytes × Option Bytes :=
  match name.findIdx? (· = 0x3D) with
  | some eq => (name.take eq, some (name.drop (eq + 1)))
  | none => (name, none)

namespace Args

def init : Args := { values := .empty, flags := ∅, positional := [] }

def pushBack (a : Args) (arg : Bytes) : Args := { a with positional := a.positional ++ [arg] }

def insertFlag (a : Args) (name : Bytes) : Args := { a with flags := insert name a.flags }

def emplace (a : Args) (name value : Bytes) : Args :=
  { a with values := a.values.emplace name value }

/-- The loop of `parse` over the words that are left. An error comes with the members as they
are when it is found. -/
def parseWords (spec : Spec) (optionsDone : Bool) : List Bytes → Args → Option Bytes × Args
  | [], a => (none, a)
  | arg :: rest, a =>
    if optionsDone || !startsWith arg dashes || arg = ascii "-" then
      parseWords spec optionsDone rest (a.pushBack arg)
    else if arg = dashes then
      parseWords spec true rest a
    else
      let (name, inlineValue) := splitInline (arg.drop 2)
      if name ∈ spec.flags then
        match inlineValue with
        | some _ => (some (ascii "option --" ++ name ++ ascii " does not take a value"), a)
        | none => parseWords spec optionsDone rest (a.insertFlag name)
      else if name ∈ spec.valueOptions then
        match inlineValue, rest with
        | some value, rest => parseWords spec optionsDone rest (a.emplace name value)
        | none, value :: rest => parseWords spec optionsDone rest (a.emplace name value)
        | none, [] => (some (ascii "option --" ++ name ++ ascii " requires a value"), a)
      else (some (ascii "unknown option --" ++ name), a)

variable {spec : Spec} {optionsDone : Bool}

theorem parseWords_nil (a : Args) : a.parseWords spec optionsDone [] = (none, a) := rfl

theorem parseWords_cons (arg : Bytes) (rest : List Bytes) (a : Args) :
    a.parseWords spec optionsDone (arg :: rest) =
      if optionsDone || !startsWith arg dashes || arg = ascii "-" then
        (a.pushBack arg).parseWords spec optionsDone rest
      else if arg = dashes then
        a.parseWords spec true rest
      else
        let (name, inlineValue) := splitInline (arg.drop 2)
        if name ∈ spec.flags then
          match inlineValue with
          | some _ => (some (ascii "option --" ++ name ++ ascii " does not take a value"), a)
          | none => (a.insertFlag name).parseWords spec optionsDone rest
        else if name ∈ spec.valueOptions then
          match inlineValue, rest with
          | some value, rest => (a.emplace name value).parseWords spec optionsDone rest
          | none, value :: rest => (a.emplace name value).parseWords spec optionsDone rest
          | none, [] => (some (ascii "option --" ++ name ++ ascii " requires a value"), a)
        else (some (ascii "unknown option --" ++ name), a) := by
  rw [parseWords]

/-- Parses `argv` from `first` on, and returns an error message on failure. -/
def parse (a : Args) (argv : List Bytes) (first : ℕ) (spec : Spec) : Option Bytes × Args :=
  a.parseWords spec false (argv.drop first)

variable (a : Args)

def flag (name : Bytes) : Bool := name ∈ a.flags

def getAll (name : Bytes) : List Bytes := (a.values.equalRange name).map Prod.snd

/-- The last occurrence wins. -/
def get (name : Bytes) : Option Bytes := (a.values.equalRange name).getLast?.map Prod.snd

def getOr (name fallback : Bytes) : Bytes := (a.get name).getD fallback

end Args
end GeminiCpp.Cli
