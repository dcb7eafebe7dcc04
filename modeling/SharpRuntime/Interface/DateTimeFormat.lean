import SharpRuntime.Interface.DateTimeValue

/-!
# Custom formats

A custom format made of the seven fixed-width tokens and of literals is the spelling of a list
of `Item`s.  A literal is written plainly, inside quotes, or escaped by a backslash.  `Reads`
says that a list of items followed by some text is read back item by item: no token runs
into a following one, and no quotation ends early.
-/

set_option autoImplicit false

namespace SharpRuntime.Interface

open Machine Model
open Model.DateTime (hourOf minuteOf secondOf)

/-- The tokens `yyyy`, `MM`, `dd`, `HH`, `mm`, `ss` and `fffffff`. -/
inductive Token where
  | year
  | month
  | day
  | hour
  | minute
  | second
  | fraction
deriving DecidableEq

namespace Token

def all : List Token := [year, month, day, hour, minute, second, fraction]

def specifier : Token → Char
  | year => 'y'
  | month => 'M'
  | day => 'd'
  | hour => 'H'
  | minute => 'm'
  | second => 's'
  | fraction => 'f'

/-- How often the specifier is written, which is also how many digits stand for the token. -/
def width : Token → ℕ
  | year => 4
  | fraction => 7
  | _ => 2

def value (x : DateTime) : Token → ℕ
  | year => x.date.year
  | month => x.date.month
  | day => x.date.day
  | hour => hourOf x.ticks
  | minute => minuteOf x.ticks
  | second => secondOf x.ticks
  | fraction => x.ticks % DateTime.ticksPerSecond

def spelling (t : Token) : List Char := List.replicate t.width t.specifier

def output (x : DateTime) (t : Token) : List Char := Printed.text (Printed.fixed 10 t.width (t.value x))

def get (t : Token) (fields : ExactDateTimeFields) : ℤ :=
  match t with
  | year => fields.year
  | month => fields.month
  | day => fields.day
  | hour => fields.hour
  | minute => fields.minute
  | second => fields.second
  | fraction => fields.fractionTicks

def bind (t : Token) (value : ℕ) (fields : ExactDateTimeFields) : ExactDateTimeFields :=
  match t with
  | year => { fields with year := value }
  | month => { fields with month := value }
  | day => { fields with day := value }
  | hour => { fields with hour := value, twelveHour := false }
  | minute => { fields with minute := value }
  | second => { fields with second := value }
  | fraction => { fields with fractionTicks := value }

def unbound : Token → ℤ
  | fraction => 0
  | _ => -1

theorem get_bind (t : Token) (value : ℕ) (fields : ExactDateTimeFields) :
    t.get (t.bind value fields) = value := by
  cases t <;> rfl

theorem get_bind_of_ne {t t' : Token} (h : t ≠ t') (value : ℕ) (fields : ExactDateTimeFields) :
    t.get (t'.bind value fields) = t.get fields := by
  cases t <;> cases t' <;> first | exact absurd rfl h | rfl

end Token

/-- A piece of a custom format. -/
inductive Item where
  | token (t : Token)
  | plain (c : Char)
  | quoted (quote : Char) (body : List Char)
  | escaped (c : Char)
deriving DecidableEq

namespace Item

def spelling : Item → List Char
  | token t => t.spelling
  | plain c => [c]
  | quoted quote body => quote :: (body ++ [quote])
  | escaped c => ['\\', c]

def output (x : DateTime) : Item → List Char
  | token t => t.output x
  | plain c => [c]
  | quoted _ body => body
  | escaped c => [c]

def token? : Item → Option Token
  | token t => some t
  | _ => none

end Item

def spell (items : List Item) : List Char := items.flatMap Item.spelling

def render (x : DateTime) (items : List Item) : List Char := items.flatMap (Item.output x)

def tokens (items : List Item) : List Token := items.filterMap Item.token?

def bindAll (x : DateTime) (ts : List Token) (fields : ExactDateTimeFields) : ExactDateTimeFields :=
  ts.foldl (fun fields t => t.bind (t.value x) fields) fields

/-- A character that neither the formatter nor the matcher gives a meaning. -/
def IsPlain (c : Char) : Prop :=
  c ∉ ['y', 'M', 'd', 'H', 'h', 'm', 's', 'f', 'F', 't', 'z', 'K', 'g', '%', '\\', '\'', '"']

instance (c : Char) : Decidable (IsPlain c) := inferInstanceAs (Decidable (¬ _))

def Reads : List Item → List Char → Prop
  | [], _ => True
  | .token t :: items, rest => (spell items ++ rest).head? ≠ some t.specifier ∧ Reads items rest
  | .plain c :: items, rest =>
    IsPlain c ∧ (spell items ++ rest).head? ≠ some c ∧ Reads items rest
  | .quoted quote body :: items, rest =>
    (quote = '\'' ∨ quote = '"') ∧ quote ∉ body ∧ Reads items rest
  | .escaped _ :: items, rest => Reads items rest

instance decidableReads : (items : List Item) → (rest : List Char) → Decidable (Reads items rest)
  | [], _ => isTrue trivial
  | .token _ :: items, rest => @instDecidableAnd _ _ _ (decidableReads items rest)
  | .plain _ :: items, rest =>
    @instDecidableAnd _ _ _ (@instDecidableAnd _ _ _ (decidableReads items rest))
  | .quoted _ _ :: items, rest =>
    @instDecidableAnd _ _ _ (@instDecidableAnd _ _ _ (decidableReads items rest))
  | .escaped _ :: items, rest => decidableReads items rest

/-- Whether some literal of a format is written with a backslash. -/
def HasEscape (items : List Item) : Prop := ∃ c, Item.escaped c ∈ items

def Separated : List Item → Prop
  | [] => True
  | .token _ :: items => (∀ t, items.head? ≠ some (.token t)) ∧ Separated items
  | _ :: items => Separated items

def Item.IsLiteral : Item → Prop
  | .quoted quote body => (quote = '\'' ∨ quote = '"') ∧ quote ∉ body
  | .escaped _ => True
  | _ => False

/-- A custom format with each of the seven tokens exactly once, in any order, any two of them
separated by a quoted or an escaped literal. -/
structure CompleteFormat (items : List Item) : Prop where
  literals : ∀ item ∈ items, item.token? = none → item.IsLiteral
  separated : Separated items
  complete : (tokens items).Perm Token.all

/-- `TryParseExact(x.ToString(format), format)` succeeds and gives `x` back. -/
def RoundTrips (items : List Item) (x : DateTime) : Prop :=
  ∃ text, x.toString (spell items) none = pure text ∧
    ∀ result zone, DateTime.tryParseExact text (spell items) none .none result zone = (pure true, x)

/-!
# The grammar of general date and time text

The texts that name a date, perhaps with a time of day, and perhaps with a zone: what each piece
looks like, and the numbers it stands for.  The pieces are stated from the grammar alone; the
scanner is not mentioned.
-/

open Machine.Scan Model.DateTime

/-- `yyyy-M-d`, the month and the day with one or two digits.
SOURCE: DateTimeTextScanner.hpp:134-136 -/
def DateText (l : List Char) (year month day : ℕ) : Prop :=
  ∃ y m d, l = y ++ '-' :: (m ++ '-' :: d) ∧
    Field 4 4 y year ∧ Field 1 2 m month ∧ Field 1 2 d day

/-- Nothing, or a point and one to seven digits, which count ticks by their place.
SOURCE: DateTimeTextScanner.hpp:134-136, 177-181 -/
def FractionText (l : List Char) (ticks : ℕ) : Prop :=
  (l = [] ∧ ticks = 0) ∨
    ∃ f n, l = '.' :: f ∧ Field 1 7 f n ∧ ticks = n * 10 ^ (7 - f.length)

/-- `H:m:s`, each with one or two digits, and perhaps a fraction.
SOURCE: DateTimeTextScanner.hpp:134-136 -/
def ClockText (l : List Char) (hour minute second fractionTicks : ℕ) : Prop :=
  ∃ h m s f, l = h ++ ':' :: (m ++ ':' :: (s ++ f)) ∧
    Field 1 2 h hour ∧ Field 1 2 m minute ∧ Field 1 2 s second ∧ FractionText f fractionTicks

/-- A date, perhaps with a time of day after a blank or a `T`. -/
inductive PartsText : List Char → DateTimeParts → Prop
  | date {l : List Char} {year month day : ℕ} (hdate : DateText l year month day) :
      PartsText l { year, month, day }
  | clock {l k : List Char} {c : Char} {year month day hour minute second fractionTicks : ℕ}
      (hdate : DateText l year month day) (hsep : c = ' ' ∨ c = 'T')
      (hclock : ClockText k hour minute second fractionTicks) :
      PartsText (l ++ c :: k) { year, month, day, hour, minute, second, fractionTicks }

/-- The hours and minutes of an offset, in minutes: one or two digits of hours, perhaps with
minutes after a colon, or three or four digits that hold both.
SOURCE: DateTimeTextScanner.hpp:187-209 -/
inductive OffsetText : List Char → ℤ → Prop
  | hours {h : List Char} {n : ℕ} (hhours : Field 1 2 h n) : OffsetText h (n * 60)
  | minutes {h m : List Char} {n k : ℕ} (hhours : Field 1 2 h n) (hminutes : Field 1 2 m k)
      (hlt : k < 60) : OffsetText (h ++ ':' :: m) (n * 60 + k)
  | digits {v : List Char} {n : ℕ} (hdigits : Field 3 4 v n) (hlt : n % 100 < 60) :
      OffsetText v ((n / 100 : ℕ) * 60 + (n % 100 : ℕ))

/-- No zone, the zone of UTC, or a signed offset in minutes.
SOURCE: DateTime.cpp:707-709 -/
inductive ZoneText : List Char → Option ℤ → Prop
  | absent : ZoneText [] none
  | utc {c : Char} (hutc : c = 'Z' ∨ c = 'z') : ZoneText [c] (some 0)
  | east {l : List Char} {minutes : ℤ} (hoffset : OffsetText l minutes) :
      ZoneText ('+' :: l) (some minutes)
  | west {l : List Char} {minutes : ℤ} (hoffset : OffsetText l minutes) :
      ZoneText ('-' :: l) (some (-minutes))

/-- The text names these parts and this zone, with white space around them. -/
def DateTimeText (s : List Char) (parts : DateTimeParts) (zone : Option ℤ) : Prop :=
  ∃ lead body z trail, s = lead ++ (body ++ z ++ trail) ∧
    (∀ c ∈ lead, c ∈ Printed.blanks) ∧ (∀ c ∈ trail, c ∈ Printed.blanks) ∧
    PartsText body parts ∧ ZoneText z zone

/-- The parts are a date of the calendar and a time of day. -/
structure ValidParts (parts : DateTimeParts) : Prop where
  year_pos : 1 ≤ parts.year
  year_le : parts.year ≤ 9999
  month_pos : 1 ≤ parts.month
  month_le : parts.month ≤ 12
  day_pos : 1 ≤ parts.day
  day_le : parts.day ≤ Machine.Gregorian.monthLength parts.year parts.month
  hour_lt : parts.hour < 24
  minute_lt : parts.minute < 60
  second_lt : parts.second < 60

end SharpRuntime.Interface
