import EntityFilter.Main
import EntityFilter.Proofs.Aliases
import EntityFilter.Proofs.Complements
import EntityFilter.Proofs.Confidentiality
import EntityFilter.Proofs.Connectives
import EntityFilter.Proofs.DeferredFailure
import EntityFilter.Proofs.Disclosure
import EntityFilter.Proofs.Joins
import EntityFilter.Proofs.RoundTrip
import EntityFilter.Proofs.Sentences
import EntityFilter.Proofs.TextEquality
import EntityFilter.Proofs.Wildcards
import EntityFilter.Proofs.Continuation
import EntityFilter.Proofs.Quoting
import EntityFilter.Proofs.Composition
import EntityFilter.Proofs.Completion
import EntityFilter.Proofs.Discipline
import EntityFilter.Proofs.Numerals
import EntityFilter.Proofs.Rounding
import EntityFilter.Proofs.Timeline
import EntityFilter.Proofs.InstantReading
import EntityFilter.Proofs.Fidelity
import EntityFilter.Proofs.Moments
import EntityFilter.Proofs.DateTimes
import EntityFilter.Proofs.StoredText
import EntityFilter.Proofs.Verbatim
import EntityFilter.Proofs.LostPaths
import EntityFilter.Proofs.Existence
import EntityFilter.Proofs.Reordering
import EntityFilter.Proofs.Malformed
import EntityFilter.Proofs.Trichotomy
import EntityFilter.Proofs.Like
import EntityFilter.Proofs.Refusals
import EntityFilter.Proofs.Placement
import EntityFilter.Proofs.Unexpected
import EntityFilter.Proofs.Progress
import EntityFilter.Proofs.Spacing
import EntityFilter.Proofs.KeptPatterns
import EntityFilter.Proofs.Selection
import EntityFilter.Proofs.Entries
import EntityFilter.Proofs.FieldlessRecords
import EntityFilter.Proofs.WrittenJson
import EntityFilter.Proofs.FieldOrder
import EntityFilter.Proofs.Recovery
import EntityFilter.Proofs.Documents
import EntityFilter.Proofs.Registry
import EntityFilter.Proofs.Indentation
import EntityFilter.Proofs.CommandLines
import EntityFilter.Proofs.Settings
import EntityFilter.Proofs.SelectorLanguage
import EntityFilter.Proofs.RefusedPatterns
