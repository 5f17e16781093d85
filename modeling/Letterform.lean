import Letterform.Main
import Letterform.Outline.Pair
import Letterform.Proofs.Charstring.Accented
import Letterform.Proofs.Charstring.CapturedFlex
import Letterform.Proofs.Charstring.Cipher
import Letterform.Proofs.Charstring.ClosedOutline
import Letterform.Proofs.Charstring.DefaultLocation
import Letterform.Proofs.Charstring.Draws
import Letterform.Proofs.Charstring.Failures
import Letterform.Proofs.Charstring.FlexReturn
import Letterform.Proofs.Charstring.Frames
import Letterform.Proofs.Charstring.PlainRoundTrip
import Letterform.Proofs.Charstring.Rolling
import Letterform.Proofs.Charstring.Saturation
import Letterform.Proofs.Charstring.SharedContext
import Letterform.Proofs.Charstring.ShortestOperand
import Letterform.Proofs.Charstring.Stability
import Letterform.Proofs.Charstring.WidthOperand
import Letterform.Proofs.Component.Numbering
import Letterform.Proofs.Hint.Changes
import Letterform.Proofs.Hint.Repeats
import Letterform.Proofs.Outline.Raising
import Letterform.Proofs.Outline.WellFormed
import Letterform.Proofs.Record.Composite
import Letterform.Proofs.Record.CompositeBounds
import Letterform.Proofs.Record.CompositePoints
import Letterform.Proofs.Record.Maxima
import Letterform.Proofs.Record.Nesting
import Letterform.Proofs.Record.RoundTrip
