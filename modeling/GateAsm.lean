import GateAsm.Array.Base64
import GateAsm.Array.Basic
import GateAsm.Array.Element
import GateAsm.Array.Listing
import GateAsm.Attr.Accessors
import GateAsm.Attr.Basic
import GateAsm.Attr.Coercion
import GateAsm.Attr.Construct
import GateAsm.Attr.Equality
import GateAsm.Attr.Printer
import GateAsm.Attr.Shown
import GateAsm.Attr.Text
import GateAsm.Block.Basic
import GateAsm.Block.Printer
import GateAsm.Block.Window
import GateAsm.CommandLine.Arguments
import GateAsm.CommandLine.Host
import GateAsm.CommandLine.Run
import GateAsm.CommandLine.Spec
import GateAsm.CommandLine.Tool
import GateAsm.Config.Basic
import GateAsm.Config.Document
import GateAsm.Failure
import GateAsm.Floating.Basic
import GateAsm.Floating.Double
import GateAsm.Floating.Places
import GateAsm.Floating.Shortest
import GateAsm.Floating.Text
import GateAsm.Gzip.Bits
import GateAsm.Gzip.Inflate
import GateAsm.Gzip.Member
import GateAsm.Gzip.PrefixCode
import GateAsm.Json.Access
import GateAsm.Json.Basic
import GateAsm.Json.Label
import GateAsm.Json.Reader
import GateAsm.Json.Writer
import GateAsm.Kind.Basic
import GateAsm.Kind.Registry
import GateAsm.Kind.Standard
import GateAsm.Log.Event
import GateAsm.Log.Format
import GateAsm.Log.Logging
import GateAsm.Log.Record
import GateAsm.Main
import GateAsm.Operation.Build
import GateAsm.Operation.Fault
import GateAsm.Operation.Printer
import GateAsm.Operation.Slots
import GateAsm.Operation.Verify
import GateAsm.Parser.Call
import GateAsm.Parser.Fault
import GateAsm.Parser.Instruction
import GateAsm.Parser.Literal
import GateAsm.Parser.Operands
import GateAsm.Parser.Scope
import GateAsm.Parser.State
import GateAsm.Parser.TypeExpr
import GateAsm.Power
import GateAsm.Source.Diagnostic
import GateAsm.Source.FileFault
import GateAsm.Source.Location
import GateAsm.Text.Blank
import GateAsm.Text.Integer
import GateAsm.Text.Printable
import GateAsm.Text.Quoted
import GateAsm.Token.Basic
import GateAsm.Token.Lexer
import GateAsm.Ty.Basic
import GateAsm.Ty.Class
import GateAsm.Ty.Context
import GateAsm.Ty.Make
import GateAsm.Ty.Owned
import GateAsm.Wire.Bytes
import GateAsm.Wire.Kinds
import GateAsm.Wire.Read
import GateAsm.Wire.Write
import GateAsm.Yaml.BlockScalar
import GateAsm.Yaml.Composer
import GateAsm.Yaml.Cursor
import GateAsm.Yaml.Fault
import GateAsm.Yaml.FlowScalar
import GateAsm.Yaml.Mark
import GateAsm.Yaml.Reader
import GateAsm.Yaml.Scalar
import GateAsm.Yaml.Scanner
import GateAsm.Yaml.Timestamp
import GateAsm.Yaml.Token
import GateAsm.Yaml.Writer
import GateAsm.Proofs.Called
import GateAsm.Proofs.Diagnosed
import GateAsm.Proofs.FixedPoint
import GateAsm.Proofs.Grammar.TypeFaults
import GateAsm.Proofs.Reached
import GateAsm.Proofs.Renamed
import GateAsm.Proofs.Rollback
import GateAsm.Proofs.Serial.Reload
import GateAsm.Proofs.Tokens.Partition
import GateAsm.Proofs.TypeHistory
import GateAsm.Proofs.Keys
import GateAsm.Proofs.Requests
import GateAsm.Proofs.Committed
import GateAsm.Proofs.Attempts
import GateAsm.Proofs.Offences
import GateAsm.Proofs.Pieces
import GateAsm.Proofs.Joined.Modules
import GateAsm.Proofs.Written.Accessors
import GateAsm.Proofs.Written.Values
import GateAsm.Proofs.Discarded
import GateAsm.Proofs.Config.Refused
import GateAsm.Proofs.Lenient
import GateAsm.Proofs.Config.Registered
import GateAsm.Proofs.Shown
import GateAsm.Proofs.Progress
