/-
  Languages of patterns. Which patterns are well formed and what they match is left open here, so
  that schemas and selections of files can be read with any language.
-/

namespace ModCheck

/-- A language of patterns: the texts that a written pattern matches; none if it is malformed. -/
abbrev PatternLanguage := String → Option (String → Bool)

end ModCheck
