import GeminiCpp.Bytes

/-! Fenced code blocks of a Markdown reply, and the C++ source that is taken from it
(`code_extract.hpp`, `code_extract.cpp`). -/
namespace GeminiCpp.Eval

/-- `std::isspace` in the C locale. -/
def isSpace (b : UInt8) : Bool := b = 0x20 || (0x09 ≤ b && b ≤ 0x0D)

/-- `std::tolower` in the C locale. -/
def toLower (b : UInt8) : UInt8 := if 0x41 ≤ b && b ≤ 0x5A then b + 0x20 else b

def trim (s : Bytes) : Bytes :=
  ((s.dropWhile isSpace).reverse.dropWhile isSpace).reverse

structure CodeBlock where
  /-- The info string after the fence, in lower case. -/
  language : Bytes
  code : Bytes
  /-- False if the reply was cut off inside the block. -/
  terminated : Bool
deriving DecidableEq

structure Fence where
  ch : UInt8
  length : ℕ
  info : Bytes

/-- Skips at most three spaces of indentation. -/
def skipIndent (line : Bytes) : Bytes :=
  line.drop (min 3 (line.takeWhile (· = 0x20)).length)

/-- A fence line has at least three backticks or tildes after the indentation. -/
def parseFence (line : Bytes) : Option Fence :=
  match skipIndent line with
  | [] => none
  | ch :: rest =>
    if ch ≠ 0x60 ∧ ch ≠ 0x7E then none
    else
      let length := ((ch :: rest).takeWhile (· = ch)).length
      if length < 3 then none
      else
        let info := ((ch :: rest).dropWhile (· = ch)).dropWhile isSpace
        -- only the first word of the info string is the language
        let word := info.takeWhile fun b => !(ascii " \t\x7b").contains b
        some { ch, length, info := word.map toLower }

def isClosing (line : Bytes) (fence : Fence) : Bool :=
  let rest := skipIndent line
  fence.length ≤ (rest.takeWhile (· = fence.ch)).length &&
    ((rest.dropWhile (· = fence.ch)).dropWhile isSpace).isEmpty

def isCppLanguage (lang : Bytes) : Bool :=
  ([ascii "cpp", ascii "c++", ascii "cc", ascii "cxx", ascii "hpp", ascii "hxx", ascii "h",
    ascii "c"] : List Bytes).contains lang

def looksLikeCode (text : Bytes) : Bool :=
  contains text (ascii "#include") || contains text (ascii "#pragma once") ||
    contains text (ascii "template <") || contains text (ascii "template<")

/-- The state of `find_code_blocks` between two lines. -/
structure BlockScan where
  /-- The fence of the block that is open. -/
  fence : Option Fence
  current : CodeBlock
  blocks : List CodeBlock

def BlockScan.init : BlockScan :=
  { fence := none, current := { language := [], code := [], terminated := true }, blocks := [] }

def BlockScan.line (s : BlockScan) (line : Bytes) : BlockScan :=
  match s.fence with
  | none =>
    match parseFence line with
    | none => s
    | some fence =>
      { s with
        fence := some fence
        current := { language := fence.info, code := [], terminated := true } }
  | some fence =>
    if isClosing line fence then { s with fence := none, blocks := s.blocks ++ [s.current] }
    else { s with current := { s.current with code := s.current.code ++ line ++ [0x0A] } }

/-- A line without the CR before its LF. -/
def dropCr (line : Bytes) : Bytes :=
  if line.getLast? = some 0x0D then line.dropLast else line

def findCodeBlocks (markdown : Bytes) : List CodeBlock :=
  let s := ((markdown.splitOn 0x0A).map dropCr).foldl BlockScan.line .init
  match s.fence with
  | none => s.blocks
  -- the reply was cut off inside the block: what there is of it is kept
  | some _ => s.blocks ++ [{ s.current with terminated := false }]

/-- The longer of two blocks, the first one if they are equally long. -/
def longer (best : Option CodeBlock) (block : CodeBlock) : Option CodeBlock :=
  match best with
  | none => some block
  | some b => if block.code.length > b.code.length then some block else some b

/-- One block of `extract_cpp_source`: the best block tagged as C++, and the best one with no
tag. -/
def choose (best : Option CodeBlock × Option CodeBlock) (block : CodeBlock) :
    Option CodeBlock × Option CodeBlock :=
  if trim block.code = [] then best
  else if isCppLanguage block.language then (longer best.1 block, best.2)
  else if block.language = [] then (best.1, longer best.2 block)
  else best

def extractCppSource (reply : Bytes) : Option Bytes :=
  let blocks := findCodeBlocks reply
  match blocks.foldl choose (none, none) with
  | (some block, _) => some block.code
  | (none, some block) => some block.code
  | (none, none) =>
    if blocks.isEmpty && looksLikeCode reply then some (trim reply ++ ascii "\n") else none

/-- A tagged block wins over an untagged one. -/
example : extractCppSource (ascii "```\nint b;\n\n```\n``` CPP x\nint a;\n```") =
    some (ascii "int a;\n") := by decide +kernel

end GeminiCpp.Eval
