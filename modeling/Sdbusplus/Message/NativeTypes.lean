import Sdbusplus.Message.Types

namespace Sdbusplus.Message

/-- convert_to_string of a generated enum. -/
def GeneratedEnum.toString (e : GeneratedEnum) (v : e.Val) : Bytes :=
  e.wireName (e.values.get v)

/-- convert_from_string of a generated enum: the first entry of the mapping array
with the name. -/
def GeneratedEnum.fromString (e : GeneratedEnum) (str : Bytes) : Option e.Val :=
  (List.finRange e.values.length).find? (fun v => str = e.toString v)

/-- The last resort for a std::string alternative. -/
def lastResort : (t : Ty) → Bytes → Option t.Val
  | .basic .string, str => some str
  | _, _ => none

mutual

/-- convert_from_string, with no result for the types that have none. -/
def convertFromString : (t : Ty) → Bytes → Option t.Val
  | .enum e, str => e.fromString str
  | .variant t ts, str =>
    (convertFromString t str).map .inl <|> (process ts str).map .inr <|>
      (lastResort t str).map .inl
  | _, _ => none

/-- convert_from_string<std::variant>::process over the alternatives from one on. -/
def process : (ts : List Ty) → Bytes → Option (VariantVal ts)
  | [], _ => none
  | t :: ts, str =>
    (convertFromString t str).map .inl <|> (process ts str).map .inr <|>
      (lastResort t str).map .inl

end

end Sdbusplus.Message
