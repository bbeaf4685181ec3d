import Xml.Host.Serve
import Xml.Proofs.Links.Refusals
import Xml.Proofs.Namespaces.Runs
import Xml.Proofs.Steps.AttributeNames
import Xml.Proofs.XPath.NodeSets
import Xml.Proofs.Sax.Agreement
import Xml.Proofs.XPath.Parsing
import Xml.Proofs.Steps.DoctypePlace
import Xml.Proofs.Encoding.Agreement
import Xml.Proofs.Entity.Items
import Xml.Proofs.XPath.Cache
import Xml.Proofs.Trees.Sections
import Xml.Proofs.Scan.Strictness
import Xml.Proofs.Trees.Contents
import Xml.Proofs.NodeSet.Algebra
import Xml.Proofs.Trees.SpecialChars
import Xml.Proofs.StringPool.Interning
import Xml.Proofs.Bounds.Lexing
import Xml.Proofs.Scan.ValidChars
