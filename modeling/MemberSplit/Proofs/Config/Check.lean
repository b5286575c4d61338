import Mathlib.Tactic.SplitIfs
import MemberSplit.Config.Validation

/-!
# What a checked configuration promises

The check of a configuration tells the first problem. A configuration without one keeps all of what
a run relies on, and nothing else is asked of it.
-/

namespace MemberSplit.Config

/-- All that a run relies on. -/
structure IsUseful (config : Config) : Prop where
  owner : ∀ owner, config.owner = some owner → isQualifiedName owner = true
  method : isIdentifier config.dispatchMethod = true
  dispatchFile : Text.contains config.fileNames.dispatch keyPlace = true
  coreFile : config.fileNames.core.trim ≠ []
  helperFile : config.fileNames.helper.trim ≠ []
  /-- The two templates are told apart as they are written. -/
  files : config.fileNames.core ≠ config.fileNames.helper
  reference : Text.contains config.referenceTemplate pathPlace = true

theorem filter_owner_eq_none_iff (config : Config) :
    (config.owner.filter fun owner => !isQualifiedName owner) = none ↔
      ∀ owner, config.owner = some owner → isQualifiedName owner = true := by
  cases config.owner with
  | none => simp
  | some owner => simp [Option.filter]

theorem check_eq_ok_iff {config : Config} : config.check = .ok () ↔ config.IsUseful := by
  unfold check
  constructor
  · intro h
    split at h
    next => cases h
    next howner =>
      split_ifs at h with hmethod hkey hcore hhelper hfiles hreference
      have howners := (filter_owner_eq_none_iff config).mp
        (Option.eq_none_iff_forall_not_mem.mpr fun owner hmem => howner owner hmem)
      exact ⟨howners, by simpa using hmethod, by simpa using hkey, by simpa using hcore,
        by simpa using hhelper, hfiles, by simpa using hreference⟩
  · rintro ⟨howner, hmethod, hkey, hcore, hhelper, hfiles, hreference⟩
    rw [(filter_owner_eq_none_iff config).mpr howner]
    simp [hmethod, hkey, hcore, hhelper, hfiles, hreference]

end MemberSplit.Config
