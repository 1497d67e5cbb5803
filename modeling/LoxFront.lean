import LoxFront.Main
import LoxFront.Expr.Printed
import LoxFront.Proofs.RoundTrip
import LoxFront.Proofs.Adjacency
import LoxFront.Proofs.Lines
import LoxFront.Proofs.Seam
import LoxFront.Proofs.LineByLine
import LoxFront.Proofs.Appending
import LoxFront.Proofs.Blanking
import LoxFront.Proofs.Insertion
import LoxFront.Proofs.NumberText
import LoxFront.Proofs.Phrase
import LoxFront.Proofs.Rescan
import LoxFront.Proofs.UniqueReading
import LoxFront.Proofs.Delivery
import LoxFront.Proofs.Session
import LoxFront.Proofs.ExitCodes
import LoxFront.Proofs.Encoding
import LoxFront.Proofs.Emission
import LoxFront.Proofs.WholeFile
import LoxFront.Proofs.History
import LoxFront.Proofs.Legibility
import LoxFront.Proofs.Transcript
import LoxFront.Proofs.Settings
import LoxFront.Proofs.Respelling
import LoxFront.Proofs.Bounds
import LoxFront.Proofs.Rounding
import LoxFront.Proofs.NumberValue
import LoxFront.Proofs.Reprinting
import LoxFront.Proofs.Comparison
