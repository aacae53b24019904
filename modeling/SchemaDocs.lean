import SchemaDocs.Command
import SchemaDocs.Files.Memory
import SchemaDocs.Main
import SchemaDocs.Proofs.BodyField
import SchemaDocs.Proofs.Clash
import SchemaDocs.Proofs.Command
import SchemaDocs.Proofs.Comment.Cleaning
import SchemaDocs.Proofs.Comment.Mark
import SchemaDocs.Proofs.Comment.Opening
import SchemaDocs.Proofs.Comment.Sentence
import SchemaDocs.Proofs.Comment.Settled
import SchemaDocs.Proofs.Comment.Short
import SchemaDocs.Proofs.Documentable
import SchemaDocs.Proofs.Failure
import SchemaDocs.Proofs.Foremost
import SchemaDocs.Proofs.Name.Wire
import SchemaDocs.Proofs.PackageOrder
import SchemaDocs.Proofs.Section.Members
import SchemaDocs.Proofs.Section.Offence
import SchemaDocs.Proofs.Section.StatedWeight
import SchemaDocs.Proofs.Shape
import SchemaDocs.Proofs.SharedWalk
import SchemaDocs.Proofs.Site.FileOrder
import SchemaDocs.Proofs.Site.Interruption
import SchemaDocs.Proofs.Site.Publication
import SchemaDocs.Proofs.Site.Sharing
import SchemaDocs.Proofs.Stream
import SchemaDocs.Proofs.Unused
import SchemaDocs.Proofs.Walk
import SchemaDocs.Proofs.Files.Mirror
import SchemaDocs.Proofs.Site.Linkless
