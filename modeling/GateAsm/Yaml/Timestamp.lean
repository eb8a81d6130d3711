import GateAsm.Floating.Text

/-!
# Times in YAML

A scalar can be a day, or a moment with a time of day and the distance of its zone from the zero
meridian. A day has its numbers in full width; in a moment month, day and hour may have one digit.
-/

namespace GateAsm.Yaml

structure Clock where
  hour : Nat
  minute : Nat
  second : Nat
  micro : Nat
  /-- The minutes that the zone is ahead, `none` if no zone is given. -/
  zone : Option Int
  deriving DecidableEq, Repr

structure Timestamp where
  year : Nat
  month : Nat
  day : Nat
  clock : Option Clock
  deriving DecidableEq, Repr

namespace Timestamp

/-! ## Reading -/

def digits? (least most : Nat) (cs : List Char) : Option (Nat × List Char) :=
  let ds := (cs.take most).takeWhile Char.isDigit
  if ds.length < least then none else some (Floating.natOfDigits ds, cs.drop ds.length)

def after? (c : Char) (cs : List Char) : Option (List Char) :=
  if cs.head? = some c then some (cs.drop 1) else none

def zone? (cs : List Char) : Option (Option Int) :=
  match cs.dropWhile fun c => c = ' ' || c = '\t' with
  | [] => if cs.isEmpty then some none else none
  | ['Z'] => some (some 0)
  | sign :: rest =>
    if sign != '+' && sign != '-' then none
    else do
      let (hours, rest) ← digits? 1 2 rest
      let minutes ← match rest with
        | [] => some 0
        | ':' :: rest => match digits? 2 2 rest with
          | some (n, []) => some n
          | _ => none
        | _ => none
      let ahead : Int := 60 * hours + minutes
      some (some (if sign = '-' then -ahead else ahead))

def fraction (cs : List Char) : Nat × List Char :=
  match cs with
  | '.' :: cs =>
    let ds := (cs.takeWhile Char.isDigit).take 6
    (Floating.natOfDigits (ds ++ List.replicate (6 - ds.length) '0'), cs.dropWhile Char.isDigit)
  | cs => (0, cs)

def clock? (cs : List Char) : Option Clock := do
  let cs ← match cs with
    | c :: rest =>
      if c = 'T' || c = 't' then some rest
      else if c = ' ' || c = '\t' then some (rest.dropWhile fun c => c = ' ' || c = '\t')
      else none
    | [] => none
  let (hour, cs) ← digits? 1 2 cs
  let (minute, cs) ← digits? 2 2 (← after? ':' cs)
  let (second, cs) ← digits? 2 2 (← after? ':' cs)
  let (micro, cs) := fraction cs
  return ⟨hour, minute, second, micro, ← zone? cs⟩

def ofText? (s : String) : Option Timestamp := do
  let (year, cs) ← digits? 4 4 s.toList
  let (month, cs) ← digits? 1 2 (← after? '-' cs)
  let (day, cs) ← digits? 1 2 (← after? '-' cs)
  if cs.isEmpty then return ⟨year, month, day, none⟩
  return ⟨year, month, day, ← clock? cs⟩

def isPlain (s : String) : Bool :=
  match ofText? s with
  | some ⟨_, _, _, none⟩ => s.length = 10
  | some _ => true
  | none => false

/-! ## Bounds -/

def isLeapYear (year : Nat) : Bool := year % 4 = 0 && (year % 100 != 0 || year % 400 = 0)

def daysIn (year month : Nat) : Nat :=
  match month with
  | 2 => if isLeapYear year then 29 else 28
  | 4 | 6 | 9 | 11 => 30
  | _ => 31

def clockIsValid (c : Clock) : Bool :=
  c.hour < 24 && c.minute < 60 && c.second < 60 && (c.zone.map fun z => decide (z.natAbs < 1440)).getD true

def isValid (t : Timestamp) : Bool :=
  1 ≤ t.year && 1 ≤ t.month && t.month ≤ 12 && 1 ≤ t.day && t.day ≤ daysIn t.year t.month
    && (t.clock.map clockIsValid).getD true

/-! ## Texts -/

def padded (width n : Nat) : String :=
  let s := toString n
  String.ofList (List.replicate (width - s.length) '0') ++ s

def dayText (t : Timestamp) : String := padded 4 t.year ++ "-" ++ padded 2 t.month ++ "-" ++ padded 2 t.day

def zoneText (zone : Int) : String :=
  (if zone < 0 then "-" else "+") ++ padded 2 (zone.natAbs / 60) ++ ":" ++ padded 2 (zone.natAbs % 60)

def display (t : Timestamp) : String :=
  match t.clock with
  | none => t.dayText
  | some c =>
    t.dayText ++ " " ++ padded 2 c.hour ++ ":" ++ padded 2 c.minute ++ ":" ++ padded 2 c.second
      ++ (if c.micro = 0 then "" else "." ++ padded 6 c.micro) ++ (c.zone.map zoneText).getD ""

def zoneInspect (zone : Int) : String :=
  if zone = 0 then "datetime.timezone.utc"
  else
    let days := if zone < 0 then "days=-1, " else ""
    let seconds := ((60 * zone) % 86400).toNat
    s!"datetime.timezone(datetime.timedelta({days}seconds={seconds}))"

def inspect (t : Timestamp) : String :=
  match t.clock with
  | none => s!"datetime.date({t.year}, {t.month}, {t.day})"
  | some c =>
    let parts := [t.year, t.month, t.day, c.hour, c.minute]
      ++ (if c.second = 0 && c.micro = 0 then [] else [c.second]) ++ (if c.micro = 0 then [] else [c.micro])
    "datetime.datetime(" ++ ", ".intercalate (parts.map toString
      ++ (c.zone.map fun z => "tzinfo=" ++ zoneInspect z).toList) ++ ")"

def kindName (t : Timestamp) : String := if t.clock.isSome then "datetime.datetime" else "datetime.date"

end Timestamp

end GateAsm.Yaml
