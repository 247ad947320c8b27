import ContractDoc.Main
import ContractDoc.Proofs.Contract.Declarations
import ContractDoc.Proofs.Contract.ErrorLine
import ContractDoc.Proofs.Contract.FirstFailure
import ContractDoc.Proofs.Contract.Insertion
import ContractDoc.Proofs.Contract.Lookup
import ContractDoc.Proofs.Contract.Reading
import ContractDoc.Proofs.Contract.Reordering
import ContractDoc.Proofs.Contract.RoundTrip
import ContractDoc.Proofs.Contract.ToJson
import ContractDoc.Proofs.Contract.Truncation
import ContractDoc.Proofs.Conversion
import ContractDoc.Proofs.DataModel.PropertyUnion
import ContractDoc.Proofs.DataModel.RepeatedFields
import ContractDoc.Proofs.Workflow.Grammar
import ContractDoc.Proofs.Workflow.LoopCardinality
import ContractDoc.Proofs.Xml.CharacterData
import ContractDoc.Proofs.Xml.Depth
import ContractDoc.Proofs.Xml.LexicalScope
import ContractDoc.Proofs.Xml.RepeatedKeys
import ContractDoc.Proofs.Xml.Traversal
