import ClassDoc.Main
import ClassDoc.Proofs.Attribute.RoundTrip
import ClassDoc.Proofs.Name.Location
import ClassDoc.Proofs.Files.Run
import ClassDoc.Proofs.ClassFile.Passes
import ClassDoc.Proofs.Document.Accepted
import ClassDoc.Proofs.Code.Decoding
import ClassDoc.Proofs.Document.Options
import ClassDoc.Proofs.Code.Depth
import ClassDoc.Proofs.Document.Assembled
import ClassDoc.Proofs.Name.Canonical
import ClassDoc.Proofs.Model.Lossless
import ClassDoc.Proofs.ClassFile.Annotations
import ClassDoc.Proofs.ClassFile.DebugTables
import ClassDoc.Proofs.Model.Parameters
import ClassDoc.Proofs.Code.Emission
import ClassDoc.Proofs.Document.Xml
