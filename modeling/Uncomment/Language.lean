import Uncomment.Bytes

/-!
# Language profiles

What a language calls a comment and what it calls a string literal, as data. Adding a
language is adding a row to `Language.all`.
-/
namespace Uncomment

/-- The two ends of a bracketed comment. -/
structure Delimiter where
  opening : Bytes
  closing : Bytes
  deriving DecidableEq, Repr

/-- A kind of string literal. One mark opens and closes it. -/
structure Quote where
  mark : UInt8
  escape : Option UInt8
  multiline : Bool
  deriving DecidableEq, Repr

structure Language where
  name : String
  extensions : List String
  lineMarkers : List Bytes
  blocks : List Delimiter
  embedded : Option Delimiter
  quotes : List Quote
  deriving DecidableEq, Repr

namespace Language
open Ascii

def slashes : Bytes := [slash, slash]
def dashes : Bytes := [dash, dash]
def block : Delimiter := ⟨[slash, star], [star, slash]⟩
/-- A block comment that is the whole of a markup expression. -/
def markupBlock : Delimiter := ⟨[openBrace, slash, star], [star, slash, closeBrace]⟩

def escapedQuote (mark : UInt8) : Quote := ⟨mark, some backslash, false⟩
def templateQuote (mark : UInt8) : Quote := ⟨mark, some backslash, true⟩
def rawQuote (mark : UInt8) : Quote := ⟨mark, none, true⟩

def scriptQuotes : List Quote :=
  [escapedQuote quote, escapedQuote apostrophe, templateQuote backquote]

def typescript : Language where
  name := "TypeScript/JavaScript"
  extensions := ["ts", "js"]
  lineMarkers := [slashes]
  blocks := [block]
  embedded := none
  quotes := scriptQuotes

def tsx : Language where
  name := "TSX/JSX"
  extensions := ["tsx", "jsx"]
  lineMarkers := [slashes]
  blocks := [block]
  embedded := some markupBlock
  quotes := scriptQuotes

def go : Language where
  name := "Go"
  extensions := ["go"]
  lineMarkers := [slashes]
  blocks := [block]
  embedded := none
  quotes := [escapedQuote quote, escapedQuote apostrophe, rawQuote backquote]

/-- A doubled quote inside a literal reads as closing and opening again. -/
def sql : Language where
  name := "SQL"
  extensions := ["sql"]
  lineMarkers := [dashes]
  blocks := [block]
  embedded := none
  quotes := [rawQuote apostrophe, rawQuote quote]

def json : Language where
  name := "JSON"
  extensions := ["json"]
  lineMarkers := [slashes]
  blocks := [block]
  embedded := none
  quotes := [escapedQuote quote]

/-- The supported languages in the order of the help text. -/
def all : List Language := [typescript, tsx, go, sql, json]

/-- First byte of every token that can open a comment or a literal. -/
def openingBytes (lang : Language) : List UInt8 :=
  (lang.lineMarkers ++ lang.blocks.map Delimiter.opening
      ++ (lang.embedded.map Delimiter.opening).toList).filterMap List.head?
    ++ lang.quotes.map Quote.mark

def mayOpen (lang : Language) (b : UInt8) : Bool := lang.openingBytes.contains b

/-- The opening bytes in ascending order. -/
def sortedOpeningBytes (lang : Language) : List UInt8 :=
  ((List.range 256).map UInt8.ofNat).filter lang.mayOpen

def lowerAscii (s : String) : String := s.map Char.toLower

/-- The language of a file extension, with or without its dot and in any letter case. -/
def ofExtension? (extension : String) : Option Language :=
  let bare := match extension.toList with
    | '.' :: rest => String.ofList rest
    | _ => extension
  all.find? fun lang => lang.extensions.contains (lowerAscii bare)

/-- Supported extensions, each with its dot. -/
def supportedExtensions : List String :=
  all.flatMap fun lang => lang.extensions.map ("." ++ ·)

end Language
end Uncomment
