import Palette.Archive.Audit
import Palette.Archive.Basic
import Palette.Archive.Correction
import Palette.Archive.Decode
import Palette.Archive.Encode
import Palette.Archive.Resolve
import Palette.Color.Hex
import Palette.Color.Light
import Palette.Color.Oklab
import Palette.Color.Space
import Palette.Color.Vision
import Palette.CommandLine.Arguments
import Palette.CommandLine.Command
import Palette.CommandLine.Moment
import Palette.Contrast.Apca
import Palette.Contrast.Basic
import Palette.Contrast.Difference
import Palette.Contrast.Engines
import Palette.Contrast.Wcag
import Palette.Disk.Basic
import Palette.Disk.Load
import Palette.Document.Access
import Palette.Document.Basic
import Palette.Document.Edit
import Palette.Document.Phrase
import Palette.Document.Reader
import Palette.Document.Writer
import Palette.Entries
import Palette.Fault
import Palette.Fingerprint
import Palette.FontSize
import Palette.Main
import Palette.Number.Decimal
import Palette.Number.Dyadic
import Palette.Number.Numeral
import Palette.OrderedMap
import Palette.Override
import Palette.Proofs.Archive.Answers
import Palette.Proofs.Archive.Codec
import Palette.Proofs.Archive.Refused
import Palette.Proofs.Archive.Textual
import Palette.Proofs.Archive.Transport
import Palette.Proofs.Archive.Usable
import Palette.Proofs.Archive.Visions
import Palette.Proofs.Color.Canonical
import Palette.Proofs.Color.Clamped
import Palette.Proofs.Color.Conversion
import Palette.Proofs.Color.Distance
import Palette.Proofs.Contrast.Graded
import Palette.Proofs.Document.Keyed
import Palette.Proofs.Elevation
import Palette.Proofs.Entries
import Palette.Proofs.Fingerprint.Changes
import Palette.Proofs.Fingerprint.Primitives
import Palette.Proofs.Monotonic
import Palette.Proofs.Nearest
import Palette.Proofs.Number.Arithmetic
import Palette.Proofs.Number.Bounded
import Palette.Proofs.Number.Difference
import Palette.Proofs.Number.Exact
import Palette.Proofs.Number.Order
import Palette.Proofs.Number.Packing
import Palette.Proofs.Number.Range
import Palette.Proofs.Number.Rounding
import Palette.Proofs.Number.Upright
import Palette.Proofs.Outcome
import Palette.Proofs.Override
import Palette.Proofs.Precedence
import Palette.Proofs.Registry.Best
import Palette.Proofs.Registry.Built
import Palette.Proofs.Registry.Compliance
import Palette.Proofs.Registry.Corrections
import Palette.Proofs.Registry.Moved
import Palette.Proofs.Registry.Passes
import Palette.Proofs.Registry.Reordered
import Palette.Proofs.Registry.Repeated
import Palette.Proofs.Registry.Replacement
import Palette.Proofs.Registry.Reported
import Palette.Proofs.Registry.Sentences
import Palette.Proofs.Registry.Separation
import Palette.Proofs.Registry.Settled
import Palette.Proofs.Registry.Shards
import Palette.Proofs.Registry.Space
import Palette.Proofs.Registry.States
import Palette.Proofs.Registry.Strictness
import Palette.Proofs.Registry.Themes
import Palette.Proofs.Registry.Traced
import Palette.Proofs.Registry.Tracks
import Palette.Proofs.Registry.Truth
import Palette.Proofs.Rules
import Palette.Proofs.Search
import Palette.Proofs.Sites
import Palette.Proofs.Spec.Choices
import Palette.Proofs.Spec.Coherent
import Palette.Proofs.Spec.Fitting
import Palette.Proofs.Spec.Gate
import Palette.Proofs.Spec.Kept
import Palette.Proofs.Spec.Misfit
import Palette.Proofs.Spec.Names
import Palette.Proofs.Spec.Parts
import Palette.Proofs.Spec.Retoned
import Palette.Proofs.Spec.Steps
import Palette.Proofs.Spec.Textual
import Palette.Proofs.Spec.Toned
import Palette.Proofs.Spec.WellFormed
import Palette.Proofs.Stylesheet.Cascade
import Palette.Proofs.Stylesheet.Families
import Palette.Proofs.Stylesheet.Selectors
import Palette.Proofs.Stylesheet.Shown
import Palette.Proofs.Stylesheet.Variables
import Palette.Proofs.Stylesheet.Visions
import Palette.Proofs.Text.Hexadecimal
import Palette.Proofs.Text.Point
import Palette.Proofs.Text.Quoted
import Palette.Proofs.Text.Separated
import Palette.Proofs.Turns
import Palette.Ramp
import Palette.Registry.Basic
import Palette.Registry.Build
import Palette.Registry.Correction
import Palette.Registry.Swatch
import Palette.Rule
import Palette.Search
import Palette.Spec.Basic
import Palette.Spec.Check
import Palette.Spec.Compile
import Palette.Spec.Problem
import Palette.Spec.Tone
import Palette.Stylesheet.Basic
import Palette.Stylesheet.Build
import Palette.Text.Bytes
import Palette.Text.Character
import Palette.Text.Point
import Palette.Text.Printable
import Palette.Text.Quoted
import Palette.Theme
