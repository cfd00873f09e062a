import PackedRatings.Failure

/-!
# Requirements

The conditions that operations check before they act. Each has a subject, the element or
argument that it speaks of, and a wording; an unmet requirement becomes a `Failure` that
quotes both. All wording of checks is in this file.
-/
namespace PackedRatings

/-- Whether a check protects a call from its arguments or a reader from its data. -/
inductive Guard where
  | argument
  | data
  deriving DecidableEq

/-- The name without the quotes that surround it. -/
def unquoted (name : String) : String :=
  let isQuote := fun c : Char => c == '"'
  String.ofList ((name.toList.dropWhile isQuote).reverse.dropWhile isQuote).reverse

def Guard.failure (guarded : Guard) (name condition : String) : Failure :=
  match guarded with
  | .argument => .invalidArgument (unquoted name) s!"expected {condition}"
  | .data => .invalidFormat (unquoted name) s!"expected {condition}"

inductive Requirement where
  | keysAscend
  | lowerWithinUpper
  | upperWithinLength
  | oneValuePerKey
  | eventNameNonempty
  | timestampGiven
  | roomForRating
  | rowComplete
  | headerComplete
  | magicMatches
  | ratingCountNonnegative
  | userCountNonnegative
  | itemCountNonnegative
  | sectionLengthMatches
  | ratingSectionFits
  | indexSectionFits
  | keyCountFits
  | tableKeysAscend
  | runLengthNonnegative
  | runFits
  | rowInRange
  deriving DecidableEq

namespace Requirement

/-- What the requirement protects, the subject that it names, and its wording. -/
def clause : Requirement → Guard × String × String
  | keysAscend => (.argument, "keys", "w[0] < w[1]")
  | lowerWithinUpper => (.argument, "lower", "lower <= upper")
  | upperWithinLength => (.argument, "upper", "upper <= self.len()")
  | oneValuePerKey => (.argument, "values", "values.len() == keys.len()")
  | eventNameNonempty => (.argument, "name", "!name.is_empty()")
  | timestampGiven =>
    (.argument, "rating", "rating.timestamp.is_some() || !self.format.has_timestamps()")
  | roomForRating => (.argument, "rating_count", "self.count < i32::MAX as usize")
  | rowComplete => (.data, "row", "bytes.len() >= self.row_width()")
  | headerComplete => (.data, "header", "bytes.len() >= HEADER_LEN")
  | magicMatches => (.data, "magic", "magic == MAGIC")
  | ratingCountNonnegative => (.data, "rating_count", "rating_count >= 0")
  | userCountNonnegative => (.data, "user_count", "user_count >= 0")
  | itemCountNonnegative => (.data, "item_count", "item_count >= 0")
  | sectionLengthMatches =>
    (.data, "section_len",
      "u64::try_from(section_len).ok() == Some(header.rating_section_len() as u64)")
  | ratingSectionFits => (.data, "rating_section", "index_offset <= bytes.len()")
  | indexSectionFits => (.data, "index_section", "index_end <= bytes.len()")
  | keyCountFits => (.data, "key_count", "key_count <= bytes.len() / 12")
  | tableKeysAscend => (.data, "index_keys", "prev < key")
  | runLengthNonnegative => (.data, "count", "count >= 0")
  | runFits => (.data, "count", "count as usize <= r.len() / 4")
  | rowInRange => (.data, "row", "row >= 0 && (row as usize) < row_count")

def failure (requirement : Requirement) : Failure :=
  let (guarded, subject, condition) := requirement.clause
  guarded.failure subject condition

/-- Refuses unless `p` holds. -/
def check (requirement : Requirement) (p : Prop) [Decidable p] : Except Failure Unit :=
  if p then .ok () else .error requirement.failure

end Requirement

end PackedRatings
