import JsonSieve.Constraint.Document
import JsonSieve.Json.Reader
import JsonSieve.Schema
import JsonSieve.Session
import JsonSieve.Trace.Coverage
import JsonSieve.Trace.Log
import JsonSieve.Trace.Profile
import JsonSieve.Trace.Record
import JsonSieve.Proofs.Lexer.Numerals
import JsonSieve.Proofs.Image.Stored
import JsonSieve.Proofs.Running.Linear
import JsonSieve.Proofs.Machine.Strict
import JsonSieve.Proofs.Machine.Splitting
import JsonSieve.Proofs.Session.Buffering
import JsonSieve.Proofs.Session.Brackets
import JsonSieve.Proofs.Image.Relocated
import JsonSieve.Proofs.Liveness.Slots
import JsonSieve.Proofs.Machine.Accepted
import JsonSieve.Proofs.Lexer.Offsets
import JsonSieve.Proofs.Matcher.Cases
import JsonSieve.Proofs.Lexer.Buffered
import JsonSieve.Proofs.Constraint.Meaning
import JsonSieve.Proofs.Schema.Growth
