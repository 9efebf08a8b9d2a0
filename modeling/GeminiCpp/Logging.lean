import GeminiCpp.Json

/-! The logger (`logging.hpp`, `logging.cpp`): records as `key=value` text, or as JSON lines. -/
namespace GeminiCpp.Log

inductive Level
  | debug
  | info
  | warn
  | error
  | off
deriving DecidableEq, Repr

def levelName : Level → Bytes
  | .debug => ascii "debug"
  | .info => ascii "info"
  | .warn => ascii "warn"
  | .error => ascii "error"
  | .off => ascii "off"

abbrev Field := Bytes × Bytes

/-- What the clock and the C library give: the date as `strftime` prints it, without spaces or
control characters, and the milliseconds of the second. -/
structure Now where
  date : Bytes
  millis : ℤ
  printable : ∀ b ∈ date, 0x20 < b

/-- `%03d`. -/
def printMillis (n : ℤ) : Bytes :=
  if n < 0 then 0x2D :: (toDecimal (-n)).leftpad 2 0x30 else (toDecimal n).leftpad 3 0x30

def timestamp (now : Now) : Bytes := now.date ++ 0x2E :: (printMillis now.millis ++ [0x5A])

def needsQuotes (v : Bytes) : Bool := v.isEmpty || v.any fun b => b ∈ ascii " \t\"="

/-- `fputs` stops at the end of the C string. -/
def fputs (s : Bytes) : Bytes := s.takeWhile (· ≠ 0)

-- `dump(-1, ' ', false, error_handler_t::replace)`
variable (dump : Json → Bytes)

def jsonRecord (now : Now) (lvl : Level) (event : Bytes) (fields : List Field) : Bytes :=
  let j := Json.null.set (ascii "ts") (.str (timestamp now))
  let j := j.set (ascii "level") (.str (levelName lvl))
  let j := j.set (ascii "event") (.str event)
  dump (fields.foldl (fun j field => j.set field.1 (.str field.2)) j)

def valueText (v : Bytes) : Bytes := if needsQuotes v then dump (.str v) else v

def fieldText (field : Field) : Bytes := space :: (field.1 ++ 0x3D :: valueText dump field.2)

def textRecord (now : Now) (lvl : Level) (event : Bytes) (fields : List Field) : Bytes :=
  timestamp now ++ space :: ((levelName lvl).map (· - (0x61 - 0x41)) ++ space :: event) ++
    fields.flatMap (fieldText dump)

/-- What a call writes to the log. -/
def write (json : Bool) (now : Now) (lvl : Level) (event : Bytes) (fields : List Field) : Bytes :=
  let line := if json then jsonRecord dump now lvl event fields
    else textRecord dump now lvl event fields
  fputs (line ++ [lf])

end GeminiCpp.Log
