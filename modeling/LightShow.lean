import LightShow.Text.Hex
import LightShow.Device.Setting
import LightShow.Diagnostic.Log
import LightShow.Color
import LightShow.Token.Lexer
import LightShow.Script.Alias
import LightShow.Script.Parser
import LightShow.Device.Resolve
import LightShow.Bits.WidthCode
import LightShow.Image.Stage
import LightShow.Image.Decoding
import LightShow.Image.HeaderReading
import LightShow.Compile
import LightShow.Expansion.Meaning
import LightShow.Script.Rendering
import LightShow.Digest.Sha256
import LightShow.Text.Json
import LightShow.Device.File
import LightShow.Files.Tree
import LightShow.Command.Arguments
import LightShow.Main
import LightShow.Proofs.Message
import LightShow.Proofs.Image
import LightShow.Proofs.Numbering
import LightShow.Proofs.Jumps
import LightShow.Proofs.FrontEnd
import LightShow.Proofs.HeaderRoom
import LightShow.Proofs.Inlining
import LightShow.Proofs.Renumbering
import LightShow.Proofs.ActivationTree
import LightShow.Proofs.EntryThread
import LightShow.Proofs.ThreadOrder
import LightShow.Proofs.AllOrNothing
import LightShow.Proofs.LetterCase
import LightShow.Proofs.Cutting
import LightShow.Proofs.WrittenLines
import LightShow.Proofs.LineReaders
import LightShow.Proofs.RoundTrip
import LightShow.Proofs.DistinctNames
import LightShow.Proofs.JoinedTexts
import LightShow.Proofs.ExactSpans
import LightShow.Proofs.ListedBits
import LightShow.Proofs.SettledPaths
import LightShow.Proofs.LongestTicks
import LightShow.Proofs.SharedRamps
import LightShow.Proofs.SelectedLeds
import LightShow.Proofs.DeviceKeys
import LightShow.Proofs.SplicedLines
import LightShow.Proofs.ReplacedAliases
import LightShow.Expansion.Findings
import LightShow.Proofs.AliasAgreement
import LightShow.Proofs.Findings
import LightShow.Proofs.RepeatCounts
import LightShow.Proofs.LastSettings
import LightShow.Proofs.LogHistories
import LightShow.Proofs.RampAccuracy
import LightShow.Proofs.FieldNumbers
import LightShow.Script.Loops
import LightShow.Proofs.Skipping
import LightShow.Proofs.Progress
