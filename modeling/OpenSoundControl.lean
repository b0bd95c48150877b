import OpenSoundControl.Wire.Buffer
import OpenSoundControl.Message.Text
import OpenSoundControl.Message.Json
import OpenSoundControl.Message.Matching
import OpenSoundControl.Codec
import OpenSoundControl.Address.Cache
import OpenSoundControl.Json.Reading
import OpenSoundControl.Proofs.Canonical
import OpenSoundControl.Proofs.Truncation
import OpenSoundControl.Proofs.WrittenFields
import OpenSoundControl.Proofs.FirstFault
import OpenSoundControl.Proofs.Extension
import OpenSoundControl.Proofs.Guarded
import OpenSoundControl.Proofs.Refusals
import OpenSoundControl.Proofs.Delivery
import OpenSoundControl.Proofs.ClassMembers
import OpenSoundControl.Proofs.Swallowing
import OpenSoundControl.Proofs.CacheSoundness
import OpenSoundControl.Proofs.PatternMatching
import OpenSoundControl.Proofs.AnchorTokens
import OpenSoundControl.Proofs.Anchoring
import OpenSoundControl.Proofs.CacheHistory
import OpenSoundControl.Proofs.Strictness
import OpenSoundControl.Proofs.Transcoding
import OpenSoundControl.Proofs.Numerals
import OpenSoundControl.Proofs.Scanning
import OpenSoundControl.Proofs.Documents
import OpenSoundControl.Proofs.Rounding
import OpenSoundControl.Proofs.DoubleReading
import OpenSoundControl.Proofs.ShortestDecimal
import OpenSoundControl.Proofs.Separation
import OpenSoundControl.Proofs.FloatText
import OpenSoundControl.Proofs.JsonForms
import OpenSoundControl.Proofs.Replacements
import OpenSoundControl.Proofs.BraceFaults
import OpenSoundControl.Proofs.PayloadStream
import OpenSoundControl.Proofs.BufferWriters
import OpenSoundControl.Proofs.Alignment
import OpenSoundControl.Proofs.Separators
import OpenSoundControl.Proofs.Printing
import OpenSoundControl.Proofs.DiagnosticText
