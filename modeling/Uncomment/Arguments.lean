import Uncomment.Decimal
import Uncomment.Language
import Uncomment.Text.Blank

/-!
# Command line

Reading of the argument list. Short flags may be joined, an option takes its value from
the rest of its word, after `=`, or from the next word, and `--` ends the options. The
first fault from the left decides, as does the first request for help or the version.
-/
namespace Uncomment

structure Arguments where
  path : String := "."
  write : Bool := false
  recursive : Bool := false
  noRecursive : Bool := false
  noColor : Bool := false
  exclude : List String := []
  ignorePattern : List String := []
  noWarnLarge : Bool := false
  compact : Bool := false
  jobs : Option Nat := none
  timeout : Option Nat := none
  noHidden : Bool := false
  noGitignore : Bool := false
  config : Option String := none
  verbose : Bool := false
  deriving DecidableEq, Repr

inductive UsageFault where
  | unknownArgument
  | argumentConflict
  | invalidValue
  | valueValidation
  | tooManyValues
  deriving DecidableEq, Repr

/-- Why an argument list is no order to run. -/
inductive Stop where
  | help
  | version
  | fault (fault : UsageFault)
  deriving DecidableEq, Repr

namespace Arguments

/-- The recursion asked for; nothing when neither flag was given. -/
def recursion (a : Arguments) : Option Bool :=
  if a.noRecursive then some false else if a.recursive then some true else none

/-- Entries without the blanks around them; blank entries go. -/
def trimmed (values : List String) : List String :=
  (values.map Text.trim).filter (!·.isEmpty)

/-! ## The options -/

inductive Switch where
  | write
  | recursive
  | noRecursive
  | noColor
  | noWarnLarge
  | compact
  | noHidden
  | noGitignore
  | verbose
  deriving DecidableEq, Repr

inductive Valued where
  | exclude
  | ignorePattern
  | jobs
  | timeout
  | config
  deriving DecidableEq, Repr

/-- What a flag asks for. -/
inductive Flag where
  | switch (s : Switch)
  | valued (v : Valued)
  | help
  | version
  deriving DecidableEq, Repr

def longFlag? : String → Option Flag
  | "write" => some (.switch .write)
  | "recursive" => some (.switch .recursive)
  | "no-recursive" => some (.switch .noRecursive)
  | "no-color" => some (.switch .noColor)
  | "exclude" => some (.valued .exclude)
  | "ignore-pattern" => some (.valued .ignorePattern)
  | "no-warn-large" => some (.switch .noWarnLarge)
  | "compact" => some (.switch .compact)
  | "jobs" => some (.valued .jobs)
  | "timeout" => some (.valued .timeout)
  | "no-hidden" => some (.switch .noHidden)
  | "no-gitignore" => some (.switch .noGitignore)
  | "config" => some (.valued .config)
  | "verbose" => some (.switch .verbose)
  | "help" => some .help
  | "version" => some .version
  | _ => none

def shortFlag? : Char → Option Flag
  | 'w' => some (.switch .write)
  | 'r' => some (.switch .recursive)
  | 'e' => some (.valued .exclude)
  | 'i' => some (.valued .ignorePattern)
  | 'j' => some (.valued .jobs)
  | 'v' => some (.switch .verbose)
  | 'h' => some .help
  | 'V' => some .version
  | _ => none

/-- A number of at least one that fits 64 bits, with an optional plus sign. -/
def positive? (value : String) : Option Nat :=
  let digits := match value.toList with
    | '+' :: rest => rest
    | cs => cs
  if digits.isEmpty || !digits.all Char.isDigit then none
  else
    let n := digits.foldl (fun n c => 10 * n + (c.toNat - '0'.toNat)) 0
    if 1 ≤ n && n < Decimal.twoTo 64 then some n else none

/-- Entries between the commas of a list value. -/
def listEntries (value : String) : List String := splitCommas value.toList
where
  splitCommas : List Char → List String
    | [] => [""]
    | c :: rest =>
      match c, splitCommas rest with
      | ',', entries => "" :: entries
      | c, entry :: more => (String.singleton c ++ entry) :: more
      | c, [] => [String.singleton c]

/-! ## Reading -/

/-- An argument whose value is not settled before the next argument is known. -/
inductive Pending where
  | option (v : Valued) (value : Option String)
  | path (word : String)
  deriving DecidableEq, Repr

/-- Arguments read so far, with the flags already seen. -/
structure Reader where
  arguments : Arguments := {}
  seen : List Flag := []
  pathSeen : Bool := false
  pending : Option Pending := none
  deriving DecidableEq, Repr

def refuse {α : Type} (fault : UsageFault) : Except Stop α := .error (.fault fault)

namespace Reader

/-- Record a flag that may be given once. -/
def once (r : Reader) (flag : Flag) : Except Stop Reader :=
  if r.seen.contains flag then refuse .argumentConflict
  else .ok { r with seen := flag :: r.seen }

/-- Turn a switch on. The two recursion switches undo each other. -/
def setSwitch (r : Reader) (s : Switch) : Except Stop Reader := do
  let r ← r.once (.switch s)
  let a := r.arguments
  match s with
  | .write => return { r with arguments := { a with write := true } }
  | .recursive =>
    return { r with
      arguments := { a with recursive := true, noRecursive := false },
      seen := r.seen.filter (· != .switch .noRecursive) }
  | .noRecursive =>
    return { r with
      arguments := { a with noRecursive := true, recursive := false },
      seen := r.seen.filter (· != .switch .recursive) }
  | .noColor => return { r with arguments := { a with noColor := true } }
  | .noWarnLarge => return { r with arguments := { a with noWarnLarge := true } }
  | .compact => return { r with arguments := { a with compact := true } }
  | .noHidden => return { r with arguments := { a with noHidden := true } }
  | .noGitignore => return { r with arguments := { a with noGitignore := true } }
  | .verbose => return { r with arguments := { a with verbose := true } }

def number (value : String) : Except Stop Nat :=
  match positive? value with
  | some n => .ok n
  | none => refuse .valueValidation

/-- Lists grow with every use, other options are given once. -/
def setValue (r : Reader) (v : Valued) (value : String) : Except Stop Reader := do
  let a := r.arguments
  match v with
  | .exclude => return { r with arguments := { a with exclude := a.exclude ++ listEntries value } }
  | .ignorePattern =>
    return { r with arguments := { a with ignorePattern := a.ignorePattern ++ listEntries value } }
  | .jobs =>
    let r ← r.once (.valued v)
    let n ← number value
    return { r with arguments := { a with jobs := some n } }
  | .timeout =>
    let r ← r.once (.valued v)
    let n ← number value
    return { r with arguments := { a with timeout := some n } }
  | .config =>
    let r ← r.once (.valued v)
    if value.isEmpty then refuse .invalidValue
    else return { r with arguments := { a with config := some value } }

/-- Settle the argument that waits, now that another one begins. -/
def settle (r : Reader) : Except Stop Reader :=
  let clear := { r with pending := none }
  match r.pending with
  | none => .ok r
  | some (.option _ none) => refuse .invalidValue
  | some (.option v (some value)) => clear.setValue v value
  | some (.path word) =>
    if word.isEmpty then refuse .invalidValue
    else .ok { clear with arguments := { r.arguments with path := word } }

/-- Apply a flag that has no value of its own yet. -/
def apply (r : Reader) (flag : Flag) : Except Stop Reader := do
  let r ← r.settle
  match flag with
  | .switch s => r.setSwitch s
  | .valued v => return { r with pending := some (.option v none) }
  | .help => throw .help
  | .version => throw .version

/-- A word that stands for itself: the value of the option before it, or the path. -/
def plainWord (r : Reader) (word : String) : Except Stop Reader := do
  match r.pending with
  | some (.option v none) => return { r with pending := some (.option v (some word)) }
  | _ =>
    if r.pathSeen then refuse .unknownArgument
    else
      let r ← r.settle
      return { r with pending := some (.path word), pathSeen := true }

/-- A word after the end of the options. -/
def trailingWord (r : Reader) (word : String) : Except Stop Reader := do
  if r.pathSeen then refuse .unknownArgument
  else
    let r ← r.settle
    return { r with pending := some (.path word), pathSeen := true }

/-- A flag spelt out, `body` being what follows the two dashes. -/
def longWord (r : Reader) (body : List Char) : Except Stop Reader := do
  let name := String.ofList (body.takeWhile (· != '='))
  let value := match body.dropWhile (· != '=') with
    | [] => none
    | _ :: rest => some (String.ofList rest)
  match longFlag? name, value with
  | none, _ => refuse .unknownArgument
  | some flag, none => r.apply flag
  | some (.valued v), some value =>
    let r ← r.settle
    r.setValue v value
  | some _, some _ => refuse .tooManyValues

/-- One-letter flags in a row. The first that takes a value takes the rest of the word,
without an equals sign in front. -/
def shortWord (r : Reader) : List Char → Except Stop Reader
  | [] => .ok r
  | c :: rest =>
    match shortFlag? c, rest with
    | none, _ => refuse .unknownArgument
    | some (.valued v), '=' :: value =>
      r.settle >>= fun r => r.setValue v (String.ofList value)
    | some (.valued v), value@(_ :: _) =>
      r.settle >>= fun r => r.setValue v (String.ofList value)
    | some flag, rest => r.apply flag >>= fun r => r.shortWord rest

def word (r : Reader) (w : String) : Except Stop Reader :=
  match w.toList with
  | '-' :: '-' :: body => r.longWord body
  | '-' :: c :: rest => r.shortWord (c :: rest)
  | _ => r.plainWord w

def read (r : Reader) : List String → Except Stop Reader
  | [] => r.settle
  | "--" :: rest => rest.foldlM trailingWord r >>= settle
  | w :: rest => r.word w >>= fun r => r.read rest

end Reader

/-- Read an argument list. -/
def parse (words : List String) : Except Stop Arguments :=
  (Reader.read {} words).map Reader.arguments

/-! ## Help -/

/-- Footer of the help text: the supported files and examples. -/
def footer : String :=
  "SUPPORTED FILES:\n    " ++ " ".intercalate Language.supportedExtensions ++ "\n\n"
    ++ "EXAMPLES:\n"
    ++ "    commenter src/main.go\n"
    ++ "    commenter 'src/**/*.ts'\n"
    ++ "    commenter --write --exclude '*.min.js,vendor/**' .\n"
    ++ "    commenter -i @ts-ignore,eslint-disable web/"

def versionText : String := "commenter 0.3.0\n"

def helpText : String :=
  "commenter 0.3.0 - Comment Remover\n"
    ++ "ソースコードからコメントを安全に除去します（文字列リテラルは保持）\n"
    ++ "\n"
    ++ "USAGE:\n"
    ++ "    commenter [OPTIONS] [PATH]\n"
    ++ "\n"
    ++ "ARGS:\n"
    ++ "  [PATH]  対象のファイル・ディレクトリ・glob パターン（例: 'src/*.ts'） [default: .]\n"
    ++ "\n"
    ++ "OPTIONS:\n"
    ++ "  -w, --write                  変更をファイルへ書き戻す（省略時はプレビューのみ）\n"
    ++ "  -r, --recursive              ディレクトリを再帰的に処理する（既定）\n"
    ++ "      --no-recursive           直下のファイルのみ処理する\n"
    ++ "      --no-color               色付き出力を無効化\n"
    ++ "  -e, --exclude <GLOB>         除外する glob（カンマ区切り, 例: '*test.go,*.min.js'）\n"
    ++ "  -i, --ignore-pattern <TEXT>  この文字列を含むコメントは残す（カンマ区切り, 例: '@ts-ignore,@deprecated'）\n"
    ++ "      --no-warn-large          大きなファイル (>500 行) の警告を出さない\n"
    ++ "      --compact                コメントだけの行を削除し、末尾コメント前の空白も詰める\n"
    ++ "  -j, --jobs <JOBS>            並列ワーカー数（既定: CPU 数）\n"
    ++ "      --timeout <SECS>         ファイル毎の処理時間上限（秒）\n"
    ++ "      --no-hidden              隠しファイル/ディレクトリを対象外にする\n"
    ++ "      --no-gitignore           .gitignore を無視する（.commenterignore は常に有効）\n"
    ++ "      --config <FILE>          設定ファイル（既定: ./commenter.config.json）\n"
    ++ "  -v, --verbose                詳細ログ (debug) を出力\n"
    ++ "  -h, --help                   Print help\n"
    ++ "  -V, --version                Print version\n"
    ++ "\n"
    ++ "\n"
    ++ footer ++ "\n"

end Arguments
end Uncomment
